/-
Module: OsPAs.Vm.Tables
Purpose: Page tables as functions from slots to PTEs, how often a frame is
  mapped, and what storing one PTE changes.
Trusted boundary: none
Main exports: Slot, slotOf, Process.entry, Pte.Maps, Process.mappings,
  mappings, entry_setDirectory, mappings_update
-/
import Mathlib.Algebra.BigOperators.Fin
import Mathlib.Algebra.Order.BigOperators.Group.Finset
import Mathlib.Data.Fintype.Prod
import OsPAs.Vm.Mmu

namespace OsPAs.Vm

open Lib

/-! ### Slots -/

/-- A place in the two levels of a page table. -/
abbrev Slot := Fin nrPtesPerPage × Fin nrPtesPerPage

/-- The place of a page below 256. -/
def slotOf (vpn : Nat) : Slot :=
  (⟨vpn / nrPtesPerPage % nrPtesPerPage, Nat.mod_lt _ (by decide)⟩, pteIdx vpn)

/-- `NR_PTES_PER_PAGE * NR_PTES_PER_PAGE`. -/
def nrPages : Nat := nrPtesPerPage * nrPtesPerPage

theorem pdIdx_of_lt {vpn : Nat} (inside : vpn < nrPages) :
    pdIdx vpn = .ok (slotOf vpn).1 := by
  have bound : vpn / nrPtesPerPage < nrPtesPerPage :=
    Nat.div_lt_of_lt_mul inside
  unfold pdIdx
  rw [dif_pos bound]
  congr 1
  exact Fin.ext (Nat.mod_eq_of_lt bound).symm

theorem pdIdx_of_le {vpn : Nat} (outside : nrPages ≤ vpn) :
    pdIdx vpn = .error .outOfRange := by
  have bound : ¬ vpn / nrPtesPerPage < nrPtesPerPage := by
    rw [Nat.div_lt_iff_lt_mul (by decide)]
    exact Nat.not_lt.mpr outside
  unfold pdIdx
  rw [dif_neg bound]

theorem slotOf_inj {v w : Nat} (inside : v < nrPages) (inside' : w < nrPages)
    (same : slotOf v = slotOf w) : v = w := by
  have first := congrArg (fun slot : Slot => slot.1.val) same
  have second := congrArg (fun slot : Slot => slot.2.val) same
  simp only [slotOf, pteIdx, nrPtesPerPage, nrPages] at first second inside inside'
  omega

/-! ### Entries -/

/-- The PTE at a place; a place without a directory counts as a zero PTE. -/
def Process.entry (p : Process) (slot : Slot) : Pte :=
  match p.outerPtes slot.1 with
  | .dir pd => pd slot.2
  | _ => zeroPte

theorem Process.entry_of_dir {p : Process} {i : Fin nrPtesPerPage}
    {pd : Directory} (isDir : p.outerPtes i = .dir pd)
    (j : Fin nrPtesPerPage) : p.entry (i, j) = pd j := by
  simp only [Process.entry, isDir]

theorem Process.entry_slotOf {p : Process} {vpn : Nat} {pd : Directory}
    (isDir : p.outerPtes (slotOf vpn).1 = .dir pd) :
    p.entry (slotOf vpn) = pd (pteIdx vpn) :=
  Process.entry_of_dir isDir (pteIdx vpn)

theorem Process.dir_of_valid {p : Process} {slot : Slot}
    (valid : (p.entry slot).valid = true) :
    ∃ pd, p.outerPtes slot.1 = .dir pd := by
  unfold Process.entry at valid
  split at valid
  · rename_i pd isDir
    exact ⟨pd, isDir⟩
  · simp [zeroPte] at valid

/-- Directory contents that agree with the entries of a process. -/
def Agrees (p : Process) (i : Fin nrPtesPerPage) (pd : Directory) : Prop :=
  ∀ j, pd j = p.entry (i, j)

theorem entry_setDirectory {p : Process} {i : Fin nrPtesPerPage}
    {pd : Directory} (agrees : Agrees p i pd) (j : Fin nrPtesPerPage)
    (pte : Pte) :
    (p.setDirectory i (Function.update pd j pte)).entry =
      Function.update p.entry (i, j) pte := by
  funext slot
  obtain ⟨i', j'⟩ := slot
  by_cases same : i' = i
  · subst same
    rw [Process.entry_of_dir (Function.update_self ..)]
    by_cases sameEntry : j' = j
    · subst sameEntry
      rw [Function.update_self, Function.update_self]
    · have other : (i', j') ≠ (i', j) := fun eq =>
        sameEntry (Prod.mk.inj eq).2
      rw [Function.update_of_ne sameEntry, Function.update_of_ne other]
      exact agrees j'
  · have other : (i', j') ≠ (i, j) := fun eq => same (Prod.mk.inj eq).1
    rw [Function.update_of_ne other]
    simp only [Process.entry, Process.setDirectory,
      Function.update_of_ne same]

/-! ### Mappings -/

/-- The PTE is valid and maps page frame `x`. -/
def Pte.Maps (pte : Pte) (x : Fin nrPageframes) : Prop :=
  pte.valid = true ∧ pte.pfn = x.val

instance (pte : Pte) (x : Fin nrPageframes) : Decidable (pte.Maps x) :=
  inferInstanceAs (Decidable (_ ∧ _))

/-- Number of valid PTEs of a process that map frame `x`. -/
def Process.mappings (p : Process) (x : Fin nrPageframes) : Nat :=
  (Finset.univ.filter fun slot => (p.entry slot).Maps x).card

/-- All processes: the current one and those in `processes`. -/
def Kernel.all (k : Kernel) : List Process := k.current :: k.processes

/-- Number of valid PTEs of all processes that map frame `x`. -/
def mappings (k : Kernel) (x : Fin nrPageframes) : Nat :=
  (k.all.map fun p => p.mappings x).sum

/-- One if the PTE maps frame `x`, else zero. -/
def Pte.count (pte : Pte) (x : Fin nrPageframes) : Nat :=
  if pte.Maps x then 1 else 0

theorem Process.mappings_eq_sum (p : Process) (x : Fin nrPageframes) :
    p.mappings x = ∑ slot, (p.entry slot).count x :=
  Finset.card_filter _ _

/-- Storing one PTE exchanges its share of the mappings. -/
theorem Process.mappings_update {p p' : Process} {slot : Slot} {pte : Pte}
    (entry : p'.entry = Function.update p.entry slot pte)
    (x : Fin nrPageframes) :
    p'.mappings x + (p.entry slot).count x = p.mappings x + pte.count x := by
  have split (f : Slot → Pte) : ∑ slot, (f slot).count x =
      (f slot).count x + ∑ other ∈ Finset.univ.erase slot, (f other).count x :=
    (Finset.add_sum_erase _ _ (Finset.mem_univ slot)).symm
  have rest : ∑ other ∈ Finset.univ.erase slot, (p'.entry other).count x =
      ∑ other ∈ Finset.univ.erase slot, (p.entry other).count x := by
    refine Finset.sum_congr rfl fun other member => ?_
    rw [entry, Function.update_of_ne (Finset.ne_of_mem_erase member)]
  rw [p'.mappings_eq_sum, p.mappings_eq_sum, split p'.entry, split p.entry, rest,
    entry, Function.update_self]
  omega

theorem Process.mappings_eq_zero {p : Process} {x : Fin nrPageframes} :
    p.mappings x = 0 ↔ ∀ slot, ¬ (p.entry slot).Maps x := by
  unfold Process.mappings
  rw [Finset.card_eq_zero, Finset.filter_eq_empty_iff]
  exact ⟨fun none slot => none (Finset.mem_univ slot), fun none slot _ => none slot⟩

/-- Storing a PTE in the current process exchanges its share of all
mappings. -/
theorem mappings_update {k k' : Kernel} {slot : Slot} {pte : Pte}
    (entry : k'.current.entry = Function.update k.current.entry slot pte)
    (processes : k'.processes = k.processes) (x : Fin nrPageframes) :
    mappings k' x + (k.current.entry slot).count x =
      mappings k x + pte.count x := by
  have own := Process.mappings_update entry x
  simp only [mappings, Kernel.all, processes, List.map_cons, List.sum_cons]
  omega

theorem mappings_eq_zero {k : Kernel} {x : Fin nrPageframes} :
    mappings k x = 0 ↔ ∀ p ∈ k.all, ∀ slot, ¬ (p.entry slot).Maps x := by
  simp only [mappings, List.sum_eq_zero_iff, List.mem_map,
    forall_exists_index, and_imp, forall_apply_eq_imp_iff₂,
    Process.mappings_eq_zero]

end OsPAs.Vm
