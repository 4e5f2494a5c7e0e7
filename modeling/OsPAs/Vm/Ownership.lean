/-
Module: OsPAs.Vm.Ownership
Purpose: What copy-on-write rests on: no PTE allows writes to a frame that is
  mapped elsewhere.  With it a stored PTE changes the pages of one process only,
  and a fork gives the child the pages of its parent.
Trusted boundary: none
Main exports: Exact.elsewhere, Guarded, Separate, Separate.edits, Represents,
  Represents.edits, Represents.stored, Forks.separate, Forks.represents
-/
import OsPAs.Vm.Contents
import OsPAs.Vm.MapCounts

namespace OsPAs.Vm

open Lib

variable {β : Type} {env : Env} {k k' : Kernel} {vpn : Nat} {pte : Pte}

/-! ### Who maps a frame -/

theorem Process.mappings_pos {p : Process} {slot : Slot} {x : Fin nrPageframes}
    (maps : (p.entry slot).Maps x) : 0 < p.mappings x := by
  apply Nat.pos_of_ne_zero
  intro none
  exact Process.mappings_eq_zero.mp none slot maps

/-- One mapping of a process is one slot. -/
theorem Process.eq_of_mappings {p : Process} {slot slot' : Slot}
    {x : Fin nrPageframes} (one : p.mappings x ≤ 1)
    (maps : (p.entry slot).Maps x) (maps' : (p.entry slot').Maps x) :
    slot = slot' :=
  Finset.card_le_one.mp one slot
    (Finset.mem_filter.mpr ⟨Finset.mem_univ slot, maps⟩) slot'
    (Finset.mem_filter.mpr ⟨Finset.mem_univ slot', maps'⟩)

theorem mappings_eq_add (k : Kernel) (x : Fin nrPageframes) :
    mappings k x = k.current.mappings x +
      (k.processes.map fun p => p.mappings x).sum := by
  simp only [mappings, Kernel.all, List.map_cons, List.sum_cons]

/-- What the current process and another one map is part of all mappings. -/
theorem mappings_add_le {p : Process} (member : p ∈ k.processes)
    (x : Fin nrPageframes) :
    k.current.mappings x + p.mappings x ≤ mappings k x := by
  have bound : p.mappings x ≤ (k.processes.map fun p => p.mappings x).sum :=
    List.single_le_sum (fun _ _ => Nat.zero_le _) _
      (List.mem_map_of_mem member)
  rw [mappings_eq_add]
  omega

/-- A frame that is free, or counted once and mapped by the page, is mapped
nowhere else. -/
theorem Exact.elsewhere (exact : Exact k) {x : Fin nrPageframes}
    (sole : k.mapcounts x = 0 ∨ k.mapcounts x = 1 ∧ (k.pte vpn).Maps x) :
    (∀ p ∈ k.processes, ∀ slot, ¬ (p.entry slot).Maps x) ∧
      ∀ slot, slot ≠ slotOf vpn → ¬ (k.current.entry slot).Maps x := by
  rcases sole with none | ⟨one, maps⟩
  · rw [exact, mappings_eq_zero] at none
    exact ⟨fun p member => none p (List.mem_cons_of_mem _ member),
      fun slot _ => none _ k.current_mem_all slot⟩
  · have here := Process.mappings_pos maps
    rw [exact] at one
    constructor
    · intro p member slot maps'
      have there := Process.mappings_pos maps'
      have bound := mappings_add_le member x
      omega
    · intro slot other maps'
      rw [mappings_eq_add] at one
      exact other (Process.eq_of_mappings (by omega) maps' maps)

/-! ### The invariant -/

/-- The PTE, which maps a frame with the given count, is read-only, or it may be
written and is the only one that maps the frame. -/
def Pte.Guarded (pte : Pte) (count : Nat) : Prop :=
  pte.rw = accessRead ∨
    pte.rw = 0x03 ∧ pte.priv ≠ accessRead ∧ count = 1

/-- What copy-on-write rests on: exact counts below `2 ^ 31`, processes with
different pids, and no PTE that allows writes to a shared frame. -/
structure Separate (k : Kernel) : Prop where
  tame : Tame k
  exact : Exact k
  few : ∀ x, k.mapcounts x < 2 ^ 31
  pids : (k.all.map (·.pid)).Nodup
  guarded : ∀ p ∈ k.all, ∀ slot x, (p.entry slot).Maps x →
    (p.entry slot).Guarded (k.mapcounts x)

theorem Separate.current_guarded (separate : Separate k) {x : Fin nrPageframes}
    (maps : (k.pte vpn).Maps x) : (k.pte vpn).Guarded (k.mapcounts x) :=
  separate.guarded _ k.current_mem_all _ x maps

/-- A mapped frame is counted. -/
theorem Separate.counted (separate : Separate k) {x : Fin nrPageframes}
    (maps : (k.pte vpn).Maps x) : 0 < k.mapcounts x := by
  rw [separate.exact]
  exact mappings_pos k.current_mem_all maps

/-- The frame that a valid PTE of the current process maps. -/
theorem Separate.frame (separate : Separate k)
    (valid : (k.pte vpn).valid = true) :
    ∃ x : Fin nrPageframes, (k.pte vpn).pfn = x.val ∧ (k.pte vpn).Maps x :=
  ⟨⟨_, separate.tame.inside _ k.current_mem_all _ valid⟩, rfl, valid, rfl⟩

/-- Storing a PTE keeps the invariant if it maps the frame of the old one or a
free one, and is guarded itself. -/
theorem Separate.edits (separate : Separate k) (edits : Edits k k' vpn pte)
    (tame : Tame k') (exact : Exact k')
    (fresh : ∀ x, pte.Maps x → (k.pte vpn).Maps x ∨ k.mapcounts x = 0)
    (own : ∀ x, pte.Maps x → pte.Guarded (k'.mapcounts x)) : Separate k' := by
  have balance (x : Fin nrPageframes) :
      k'.mapcounts x + (k.pte vpn).count x = k.mapcounts x + pte.count x := by
    rw [exact, separate.exact]
    exact mappings_update edits.entry edits.processes x
  -- another PTE keeps its frame to itself if it had it to itself
  have kept {other : Pte} {x : Fin nrPageframes}
      (elsewhere : k.mapcounts x = 1 → ¬ (k.pte vpn).Maps x)
      (maps : 0 < k.mapcounts x) (before : other.Guarded (k.mapcounts x)) :
      other.Guarded (k'.mapcounts x) := by
    rcases before with readOnly | ⟨writable, notRead, one⟩
    · exact Or.inl readOnly
    · have notOld := elsewhere one
      have notNew : ¬ pte.Maps x := by
        intro new
        rcases fresh x new with old | free
        · exact notOld old
        · omega
      have same := balance x
      unfold Pte.count at same
      rw [if_neg notOld, if_neg notNew] at same
      exact Or.inr ⟨writable, notRead, by omega⟩
  refine ⟨tame, exact, fun x => ?_, ?_, fun p member slot x maps => ?_⟩
  · have bound := separate.few x
    have moved := balance x
    unfold Pte.count at moved
    by_cases new : pte.Maps x
    · rcases fresh x new with old | free
      · rw [if_pos old, if_pos new] at moved
        omega
      · rw [if_pos new] at moved
        omega
    · rw [if_neg new] at moved
      omega
  · have samePids : k'.all.map (·.pid) = k.all.map (·.pid) := by
      simp only [Kernel.all, List.map_cons, edits.pid, edits.processes]
    rw [samePids]
    exact separate.pids
  · rcases List.mem_cons.mp member with rfl | other
    · by_cases here : slot = slotOf vpn
      · subst here
        rw [edits.entry_here] at maps ⊢
        exact own x maps
      · rw [edits.entry_of_ne here] at maps ⊢
        apply kept _ _ (separate.guarded _ k.current_mem_all slot x maps)
        · exact fun one old =>
            (separate.exact.elsewhere (Or.inr ⟨one, old⟩)).2 slot here maps
        · rw [separate.exact]
          exact mappings_pos k.current_mem_all maps
    · rw [edits.processes] at other
      have member := List.mem_cons_of_mem k.current other
      apply kept _ _ (separate.guarded p member slot x maps)
      · exact fun one old =>
          (separate.exact.elsewhere (Or.inr ⟨one, old⟩)).1 p other slot maps
      · rw [separate.exact]
        exact mappings_pos member maps

/-! ### Representation -/

/-- The page behind a PTE: writable if it was allocated for writing, with the
contents of the frame. -/
def Pte.page (contents : Nat → β) (pte : Pte) : Option (Page β) :=
  if pte.valid then
    some { writable := pte.priv ≠ accessRead, content := contents pte.pfn }
  else none

/-- The pages of a process, all of them below 256. -/
def Process.pageMap (contents : Nat → β) (p : Process) : PageMap β :=
  fun vpn =>
    if vpn < nrPages then (p.entry (slotOf vpn)).page contents else none

/-- The reference has the processes of the kernel, each with its pages. -/
structure Represents (k : Kernel) (contents : Nat → β) (r : Reference β) :
    Prop where
  current : r.current = k.current.pid
  maps : ∀ p ∈ k.all, r.maps p.pid = some (p.pageMap contents)
  unknown : ∀ pid, (∀ p ∈ k.all, p.pid ≠ pid) → r.maps pid = none

variable {contents contents' : Nat → β} {r : Reference β}

theorem Pte.page_of_valid (contents : Nat → β)
    (valid : pte.valid = true) :
    pte.page contents =
      some { writable := pte.priv ≠ accessRead, content := contents pte.pfn } :=
  if_pos valid

theorem Pte.page_of_invalid (contents : Nat → β)
    (invalid : ¬ pte.valid = true) : pte.page contents = none :=
  if_neg invalid

theorem Represents.own (represents : Represents k contents r) :
    r.own = k.current.pageMap contents := by
  unfold Reference.own
  rw [represents.current, represents.maps _ k.current_mem_all]
  rfl

theorem Represents.own_page (represents : Represents k contents r)
    (inside : vpn < nrPages) : r.own vpn = (k.pte vpn).page contents := by
  rw [represents.own]
  exact if_pos inside

theorem Represents.own_of_valid (represents : Represents k contents r)
    (inside : vpn < nrPages) (valid : (k.pte vpn).valid = true) :
    r.own vpn = some
      { writable := (k.pte vpn).priv ≠ accessRead
        content := contents (k.pte vpn).pfn } := by
  rw [represents.own_page inside, Pte.page_of_valid contents valid]

theorem Represents.own_of_invalid (represents : Represents k contents r)
    (inside : vpn < nrPages) (invalid : ¬ (k.pte vpn).valid = true) :
    r.own vpn = none := by
  rw [represents.own_page inside, Pte.page_of_invalid contents invalid]

/-- A page keeps its contents if its frame does. -/
theorem Pte.page_congr (inside : pte.valid = true → pte.pfn < nrPageframes)
    (same : ∀ x : Fin nrPageframes, pte.Maps x → contents' x = contents x) :
    pte.page contents' = pte.page contents := by
  by_cases valid : pte.valid = true
  · have sameFrame : contents' pte.pfn = contents pte.pfn :=
      same ⟨_, inside valid⟩ ⟨valid, rfl⟩
    rw [Pte.page_of_valid _ valid, Pte.page_of_valid _ valid, sameFrame]
  · rw [Pte.page_of_invalid _ valid, Pte.page_of_invalid _ valid]

theorem Process.pageMap_congr {p : Process}
    (inside : ∀ slot, (p.entry slot).valid = true →
      (p.entry slot).pfn < nrPageframes)
    (same : ∀ slot (x : Fin nrPageframes), (p.entry slot).Maps x →
      contents' x = contents x) :
    p.pageMap contents' = p.pageMap contents := by
  funext vpn
  exact if_congr Iff.rfl
    (Pte.page_congr (inside (slotOf vpn)) (same (slotOf vpn))) rfl

/-- Storing a PTE gives the page to the current process and changes no other
page, if the contents of all other mapped frames stay. -/
theorem Represents.edits (represents : Represents k contents r)
    (separate : Separate k) (inside : vpn < nrPages)
    (edits : Edits k k' vpn pte)
    (others : ∀ p ∈ k.processes, ∀ slot (x : Fin nrPageframes),
      (p.entry slot).Maps x → contents' x = contents x)
    (rest : ∀ slot, slot ≠ slotOf vpn → ∀ x : Fin nrPageframes,
      (k.current.entry slot).Maps x → contents' x = contents x) :
    Represents k' contents' (r.setPage vpn (pte.page contents')) where
  current := represents.current.trans edits.pid.symm
  maps := fun p member => by
    rcases List.mem_cons.mp member with rfl | other
    · have pages : Function.update r.own vpn (pte.page contents') =
          k'.current.pageMap contents' := by
        funext v
        by_cases here : v = vpn
        · subst here
          rw [Function.update_self, Process.pageMap, if_pos inside,
            edits.entry_here]
        · rw [Function.update_of_ne here, represents.own]
          unfold Process.pageMap
          by_cases insideToo : v < nrPages
          · have otherSlot : slotOf v ≠ slotOf vpn := fun eq =>
              here (slotOf_inj insideToo inside eq)
            rw [if_pos insideToo, if_pos insideToo, edits.entry_of_ne otherSlot]
            exact (Pte.page_congr
              (separate.tame.inside _ k.current_mem_all _)
              (rest _ otherSlot)).symm
          · rw [if_neg insideToo, if_neg insideToo]
      unfold Reference.setPage
      simp only [pages, represents.current, edits.pid, Function.update_self]
    · rw [edits.processes] at other
      have member := List.mem_cons_of_mem k.current other
      have notCurrent : p.pid ≠ k.current.pid := by
        intro same
        exact (List.nodup_cons.mp separate.pids).1
          (List.mem_map.mpr ⟨p, other, same⟩)
      unfold Reference.setPage
      simp only [represents.current, Function.update_of_ne notCurrent]
      rw [represents.maps p member, Process.pageMap_congr
        (separate.tame.inside p member) (others p other)]
  unknown := fun pid fresh => by
    have notCurrent : pid ≠ k.current.pid := by
      rintro rfl
      exact fresh _ k'.current_mem_all edits.pid
    unfold Reference.setPage
    simp only [represents.current, Function.update_of_ne notCurrent]
    apply represents.unknown
    intro p member
    rcases List.mem_cons.mp member with rfl | other
    · exact notCurrent.symm
    · apply fresh p
      apply List.mem_cons_of_mem
      rwa [edits.processes]

/-- A page is stored together with new contents of a frame that no other page
has. -/
theorem Represents.stored (represents : Represents k contents r)
    (separate : Separate k) (inside : vpn < nrPages)
    (edits : Edits k k' vpn pte) {x : Fin nrPageframes}
    (sole : k.mapcounts x = 0 ∨ k.mapcounts x = 1 ∧ (k.pte vpn).Maps x)
    (value : β) :
    Represents k' (Function.update contents x value)
      (r.setPage vpn (pte.page (Function.update contents x value))) := by
  obtain ⟨notOthers, notRest⟩ := separate.exact.elsewhere sole
  have kept {y : Fin nrPageframes} (other : y ≠ x) :
      Function.update contents x value y = contents y :=
    Function.update_of_ne (fun same => other (Fin.ext same)) _ _
  apply represents.edits separate inside edits
  · rintro p member slot y maps
    apply kept
    rintro rfl
    exact notOthers p member slot maps
  · rintro slot other y maps
    apply kept
    rintro rfl
    exact notRest slot other maps

/-! ### Forks and switches -/

/-- The invariant does not depend on which process is current. -/
theorem Separate.perm (separate : Separate k) (perm : k'.all.Perm k.all)
    (counts : k'.mapcounts = k.mapcounts) : Separate k' where
  tame := separate.tame.perm perm counts
  exact := fun x => by
    rw [counts, mappings_perm perm]
    exact separate.exact x
  few := fun x => counts ▸ separate.few x
  pids := (perm.map _).nodup_iff.mpr separate.pids
  guarded := fun p member slot x maps => by
    rw [counts]
    exact separate.guarded p (perm.mem_iff.mp member) slot x maps

theorem Pte.page_share (contents : Nat → β)
    (notWrite : pte.valid = true → pte.rw ≠ accessWrite) :
    pte.share.page contents = pte.page contents := by
  unfold Pte.share
  by_cases valid : pte.valid = true
  · rw [if_pos valid, if_neg (notWrite valid)]
    rfl
  · rw [if_neg valid]

theorem Pte.page_child (contents : Nat → β)
    (notWrite : pte.valid = true → pte.rw ≠ accessWrite) :
    pte.child.page contents = pte.page contents := by
  by_cases valid : pte.valid = true
  · rw [Pte.child_of_valid valid, Pte.page_share contents notWrite]
  · rw [Pte.page_of_invalid _ valid, Pte.page_of_invalid]
    rwa [Pte.child_valid]

theorem Separate.not_write (separate : Separate k) (slot : Slot)
    (valid : (k.current.entry slot).valid = true) :
    (k.current.entry slot).rw ≠ accessWrite := by
  have inside := separate.tame.inside _ k.current_mem_all slot valid
  rcases separate.guarded _ k.current_mem_all slot ⟨_, inside⟩ ⟨valid, rfl⟩ with
    readOnly | ⟨writable, _⟩
  · rw [readOnly]
    decide
  · rw [writable]
    decide

section Fork

variable {k₁ : Kernel} {nxt : Process} {pid : Nat}

/-- Parent and child see what the parent saw. -/
theorem Forks.pageMap_parent (separate : Separate k)
    (forks : Forks k pid k₁ nxt) (contents : Nat → β) :
    k₁.current.pageMap contents = k.current.pageMap contents := by
  funext vpn
  unfold Process.pageMap
  rw [forks.parent, Pte.page_share contents (separate.not_write _)]

theorem Forks.pageMap_child (separate : Separate k)
    (forks : Forks k pid k₁ nxt) (contents : Nat → β) :
    nxt.pageMap contents = k.current.pageMap contents := by
  funext vpn
  unfold Process.pageMap
  rw [forks.child, Pte.page_child contents (separate.not_write _)]

theorem Pte.share_rw (valid : pte.valid = true) :
    pte.share.rw = accessRead := by
  unfold Pte.share
  rw [if_pos valid]

theorem Pte.share_priv (notWrite : pte.rw ≠ accessWrite) :
    pte.share.priv = pte.priv := by
  unfold Pte.share
  rw [if_neg notWrite]
  split
  · rfl
  · rfl

/-- The members of the process list after a fork. -/
theorem Forks.mem_all (forks : Forks k pid k₁ nxt) {p : Process}
    (member : p ∈ (changeCurrent nxt k₁.processes k₁).all) :
    p = nxt ∨ p = k₁.current ∨ p ∈ k.processes := by
  have listed := changeCurrent_perm_fork.mem_iff.mp member
  simpa [Kernel.all, forks.processes] using listed

theorem Forks.separate (separate : Separate k) (forks : Forks k pid k₁ nxt)
    (fresh : ∀ p ∈ k.all, p.pid ≠ pid)
    (few : ∀ x, k.mapcounts x + k.current.mappings x < 2 ^ 31)
    (tame : Tame (changeCurrent nxt k₁.processes k₁))
    (exact : Exact (changeCurrent nxt k₁.processes k₁)) :
    Separate (changeCurrent nxt k₁.processes k₁) := by
  have counts (x : Fin nrPageframes) :
      k₁.mapcounts x = k.mapcounts x + k.current.mappings x := by
    have bound := few x
    rw [forks.counts]
    exact toUInt_of_lt (by omega)
  refine ⟨tame, exact, fun x => ?_, ?_, fun p member slot x maps => ?_⟩
  · exact (counts x).trans_lt (few x)
  · rw [(changeCurrent_perm_fork.map _).nodup_iff]
    have samePids : k₁.all.map (·.pid) = k.all.map (·.pid) := by
      simp only [Kernel.all, List.map_cons, forks.parentPid, forks.processes]
    rw [List.map_cons, samePids, forks.childPid]
    refine List.nodup_cons.mpr ⟨?_, separate.pids⟩
    rw [List.mem_map]
    rintro ⟨p, member, same⟩
    exact fresh p member same
  · change (p.entry slot).Guarded (k₁.mapcounts x)
    rcases forks.mem_all member with rfl | rfl | other
    · rw [forks.child] at maps ⊢
      have valid := maps.1
      rw [Pte.child_valid] at valid
      rw [Pte.child_of_valid valid]
      exact Or.inl (Pte.share_rw valid)
    · rw [forks.parent] at maps ⊢
      have valid := maps.1
      rw [Pte.share_valid] at valid
      exact Or.inl (Pte.share_rw valid)
    · rcases separate.guarded p (List.mem_cons_of_mem _ other) slot x maps with
        readOnly | ⟨writable, notRead, one⟩
      · exact Or.inl readOnly
      · refine Or.inr ⟨writable, notRead, ?_⟩
        -- the only mapping is not one of the parent's
        have total := separate.exact x
        have bound := mappings_add_le other x
        have positive := Process.mappings_pos maps
        rw [counts]
        omega

theorem Forks.represents {contents : Nat → β} {r : Reference β}
    (represents : Represents k contents r) (separate : Separate k)
    (forks : Forks k pid k₁ nxt) (fresh : ∀ p ∈ k.all, p.pid ≠ pid) :
    Represents (changeCurrent nxt k₁.processes k₁) contents (r.switch pid) := by
  have switched : r.switch pid =
      { r with
        current := pid
        maps := Function.update r.maps pid (some r.own) } := by
    unfold Reference.switch
    rw [represents.unknown pid fresh]
  rw [switched]
  refine ⟨forks.childPid.symm, fun p member => ?_, fun other unknown => ?_⟩
  · rcases forks.mem_all member with rfl | rfl | other
    · rw [forks.childPid, forks.pageMap_child separate, ← represents.own]
      exact Function.update_self ..
    · rw [forks.pageMap_parent separate, forks.parentPid]
      have old := fresh _ k.current_mem_all
      exact (Function.update_of_ne old ..).trans
        (represents.maps _ k.current_mem_all)
    · have member := List.mem_cons_of_mem k.current other
      exact (Function.update_of_ne (fresh p member) ..).trans
        (represents.maps p member)
  · have listed {p : Process} (member : p ∈ nxt :: k₁.all) : p.pid ≠ other :=
      unknown p (changeCurrent_perm_fork.mem_iff.mpr member)
    have notChild : other ≠ pid := by
      rintro rfl
      exact listed List.mem_cons_self forks.childPid
    refine (Function.update_of_ne notChild ..).trans
      (represents.unknown other fun p member => ?_)
    rcases List.mem_cons.mp member with rfl | inList
    · rw [← forks.parentPid]
      exact listed (List.mem_cons_of_mem _ k₁.current_mem_all)
    · rw [← forks.processes] at inList
      exact listed (List.mem_cons_of_mem _ (List.mem_cons_of_mem _ inList))

end Fork

end OsPAs.Vm
