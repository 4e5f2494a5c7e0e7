/-
Module: OsPAs.Vm.Effects
Purpose: Every command without the TLB, from the case it is in to what it
  prints and leaves, and back.
Trusted boundary: none
Main exports: off, Outcome.pass, Effect, execute_of_effect, effect_of_execute,
  Effect.tame
-/
import OsPAs.Vm.Forks

namespace OsPAs.Vm

open Lib

variable {env : Env} {k k' : Kernel}

/-- The simulator without `-t`: the TLB stays as it was at the start. -/
def off (k : Kernel) : System := { kernel := k, tlb := init.tlb }

/-- How `__do_simulation` goes on after an outcome. -/
def Outcome.pass (out : Outcome) (s : System) : Pass System :=
  match out with
  | .alreadyAllocated _ _ => .leave s
  | .memoryFull => .leave s
  | _ => .again s

theorem Outcome.pass_state (out : Outcome) (s : System) :
    (out.pass s).state = s := by
  cases out <;> rfl

/-- The PTE of a page in the current process. -/
abbrev Kernel.pte (k : Kernel) (vpn : Nat) : Pte := k.current.entry (slotOf vpn)

theorem Kernel.pte_of_dir {vpn : Nat} {pd : Directory}
    (isDir : k.current.outerPtes (slotOf vpn).1 = .dir pd) :
    k.pte vpn = pd (pteIdx vpn) :=
  Process.entry_slotOf isDir

theorem storePte_pte (base : Kernel) (vpn : Nat) (pd : Directory) (pte : Pte) :
    (storePte base vpn pd pte).pte vpn = pte := by
  rw [Kernel.pte_of_dir (storePte_dir base vpn pd pte), Function.update_self]

/-- A fault that was taken for resolved leaves a writable PTE. -/
theorem Handled.rw_eq {vpn : Nat} (handled : Handled k vpn true k') :
    (k'.pte vpn).rw = 0x03 := by
  cases handled with
  | alone => rw [storePte_pte]
  | copied => rw [storePte_pte]
  | exhausted => rw [storePte_pte]

/-- A fault that was taken for resolved lets the write through if the page was
mapped. -/
theorem Handled.allows {vpn : Nat} (handled : Handled k vpn true k')
    (valid : (k.pte vpn).valid = true) : (k'.pte vpn).Allows accessWrite := by
  refine allows_of_rw ?_ handled.rw_eq accessWrite
  cases handled with
  | alone isDir =>
      rw [storePte_pte, ← Kernel.pte_of_dir isDir]
      exact valid
  | copied => rw [storePte_pte]
  | exhausted isDir =>
      rw [storePte_pte, ← Kernel.pte_of_dir isDir]
      exact valid

/-- A write to the page faults, and the fault handler is not kept from serving
it by a missing directory or a page allocated for reading. -/
structure Faults (k : Kernel) (vpn : Nat) : Prop where
  dir : ∃ pd, k.current.outerPtes (slotOf vpn).1 = .dir pd
  denied : ¬ (k.pte vpn).Allows accessWrite
  notRead : (k.pte vpn).priv ≠ accessRead

instance (k : Kernel) (vpn : Nat) : Decidable (Faults k vpn) :=
  decidable_of_iff
    ((∃ pd, k.current.outerPtes (slotOf vpn).1 = .dir pd) ∧
      ¬ (k.pte vpn).Allows accessWrite ∧ (k.pte vpn).priv ≠ accessRead)
    ⟨fun ⟨dir, denied, notRead⟩ => ⟨dir, denied, notRead⟩,
      fun ⟨dir, denied, notRead⟩ => ⟨dir, denied, notRead⟩⟩

/-- The map count, read as an `int`, of the frame that the PTE of the page
names is `least` or more. -/
def CountedFrom (k : Kernel) (vpn : Nat) (least : Int) : Prop :=
  ∃ pfnum : Fin nrPageframes,
    (k.pte vpn).pfn = pfnum.val ∧ least ≤ asInt (k.mapcounts pfnum)

instance (k : Kernel) (vpn : Nat) (least : Int) :
    Decidable (CountedFrom k vpn least) :=
  inferInstanceAs (Decidable (∃ _ : Fin nrPageframes, _ ∧ _))

/-- What one command on pages below 256 prints and makes of the kernel. -/
inductive Effect (env : Env) (k : Kernel) : Command → Outcome → Kernel → Prop where
  | present {vpn : Nat} {rw : List Char} (inside : vpn < nrPages)
      (valid : (k.pte vpn).valid = true) :
      Effect env k (.alloc vpn rw) (.alreadyAllocated vpn (k.pte vpn).pfn) k
  | full {vpn : Nat} {rw : List Char} (inside : vpn < nrPages)
      (invalid : ¬ (k.pte vpn).valid = true) (noFrame : freeFrame k = none) :
      Effect env k (.alloc vpn rw) .memoryFull k
  | taken {vpn : Nat} {rw : List Char} {pfnum : Fin nrPageframes}
      {pd : Directory} {mallocs : Nat} (inside : vpn < nrPages)
      (invalid : ¬ (k.pte vpn).valid = true)
      (free : freeFrame k = some pfnum)
      (opened : Opened env k (slotOf vpn).1 pd mallocs) :
      Effect env k (.alloc vpn rw) (.allocated vpn pfnum.val)
        (takeFrame k vpn (makeRwflag rw) pfnum pd mallocs)
  | absent {vpn : Nat} (inside : vpn < nrPages)
      (invalid : ¬ (k.pte vpn).valid = true) :
      Effect env k (.free vpn) (.notAllocated vpn) k
  | cleared {vpn : Nat} {k' : Kernel} (inside : vpn < nrPages)
      (valid : (k.pte vpn).valid = true) (clears : Cleared k vpn k') :
      Effect env k (.free vpn) (.freed vpn (k.pte vpn).pfn) k'
  | seen {vpn : Nat} (inside : vpn < nrPages)
      (valid : (k.pte vpn).valid = true) :
      Effect env k (.read vpn) (.translated false vpn (k.pte vpn).pfn) k
  | unseen {vpn : Nat} (inside : vpn < nrPages)
      (invalid : ¬ (k.pte vpn).valid = true) :
      Effect env k (.read vpn) (.unable vpn) k
  | written {vpn : Nat} {out : Outcome} {k' : Kernel} (inside : vpn < nrPages)
      (writes : Written k vpn out k') : Effect env k (.write vpn) out k'
  | moved {pid : Nat} {k' : Kernel} (ran : switchKernel env pid k = .ok k') :
      Effect env k (.switch pid) (.switched pid) k'

/-! ### Evaluation -/

theorem addRwflag_cases {rwflag : Nat} (c : Char)
    (either : rwflag = 1 ∨ rwflag = 3) :
    addRwflag rwflag c = 1 ∨ addRwflag rwflag c = 3 := by
  unfold addRwflag
  rcases either with rfl | rfl
  · split
    · split <;> decide
    · split <;> decide
  · split
    · split <;> decide
    · split <;> decide

/-- The flag always has `ACCESS_READ`. -/
theorem makeRwflag_cases (rw : List Char) :
    makeRwflag rw = 1 ∨ makeRwflag rw = 3 := by
  have fold (rwflag : Nat) (either : rwflag = 1 ∨ rwflag = 3) :
      rw.foldl addRwflag rwflag = 1 ∨ rw.foldl addRwflag rwflag = 3 := by
    induction rw generalizing rwflag with
    | nil => exact either
    | cons c rest inductionHypothesis =>
        exact inductionHypothesis _ (addRwflag_cases c either)
  exact fold accessRead (Or.inl rfl)

theorem allows_read {pte : Pte} : pte.Allows accessRead ↔ pte.valid = true := by
  simp [Pte.Allows, accessRead, accessWrite]

theorem translate_read {vpn : Nat} (tame : Tame k) (inside : vpn < nrPages) :
    translate false accessRead vpn (off k) =
      .ok (if (k.pte vpn).valid = true then some ((k.pte vpn).pfn, false)
        else none, off k) := by
  have walked := tame.walk inside accessRead
  by_cases valid : (k.pte vpn).valid = true
  · rw [if_pos (allows_read.mpr valid)] at walked
    rw [translate_off (s := off k) walked, if_pos valid]
    rfl
  · rw [if_neg (allows_read.not.mpr valid)] at walked
    rw [translate_off (s := off k) walked, if_neg valid]
    rfl

theorem cached_off : cached init.tlb = [] := cached_replicate _

theorem room_off : (cached init.tlb).length < init.tlb.length := by
  rw [cached_off]
  unfold init
  rw [List.length_replicate]
  decide

theorem removeTlb_off (vpn : Nat) : removeTlb vpn init.tlb = .ok init.tlb :=
  removeTlb_empty cached_off room_off

theorem flushTlb_off : flushTlb init.tlb = .ok init.tlb :=
  flushTlb_empty cached_off room_off

/-- The assertions of `__alloc_page` hold for every flag it is called with. -/
theorem cAssert_rwflag (rw : List Char) :
    cAssert (makeRwflag rw ≠ 0) = .ok () ∧
      cAssert (makeRwflag rw &&& accessRead ≠ 0) = .ok () := by
  rcases makeRwflag_cases rw with eq | eq
  · rw [eq]
    exact ⟨rfl, rfl⟩
  · rw [eq]
    exact ⟨rfl, rfl⟩

/-- So does the assertion of `__access_memory` on the flag. -/
theorem rwflag_exclusive (rw : List Char) : Exclusive (makeRwflag rw) := by
  unfold Exclusive
  rcases makeRwflag_cases rw with eq | eq
  · rw [eq]
    decide
  · rw [eq]
    decide

/-- A command does what its case says. -/
theorem execute_of_effect (tame : Tame k) {c : Command} {out : Outcome}
    (effect : Effect env k c out k') :
    execute false env c (off k) = .ok (out, out.pass (off k')) := by
  cases effect with
  | @present vpn rw inside valid =>
      simp only [execute, requestPage, (cAssert_rwflag rw).1,
        (cAssert_rwflag rw).2,
        translate_read tame inside, if_pos valid, bind, Except.bind, pure,
        Except.pure]
      rfl
  | @full vpn rw inside invalid noFrame =>
      have failed := allocPage_of_full env vpn (makeRwflag rw) noFrame
      simp only [execute, requestPage, (cAssert_rwflag rw).1,
        (cAssert_rwflag rw).2,
        translate_read tame inside, if_neg invalid, onKernel, bind, Except.bind,
        pure, Except.pure]
      simp only [off, failed, if_true]
      rfl
  | @taken vpn rw pfnum pd mallocs inside invalid free opened =>
      have taken := allocPage_of_opened (makeRwflag rw) inside free opened
      have isFrame : pfnum.val ≠ allocFailed := by
        have bound := pfnum.isLt
        unfold nrPageframes at bound
        unfold allocFailed
        omega
      simp only [execute, requestPage, (cAssert_rwflag rw).1,
        (cAssert_rwflag rw).2,
        translate_read tame inside, if_neg invalid, onKernel, bind, Except.bind,
        pure, Except.pure]
      simp only [off, taken, if_neg isFrame, if_true]
      rfl
  | absent inside invalid =>
      simp only [execute, releasePage, translate_read tame inside,
        if_neg invalid, bind, Except.bind, pure, Except.pure]
      rfl
  | cleared inside valid clears =>
      have ran := (clearPte_iff inside).mpr clears
      simp only [execute, releasePage, translate_read tame inside,
        if_pos valid, freePage, bind, Except.bind, pure, Except.pure]
      simp only [off, ran, removeTlb_off]
      rfl
  | seen inside valid =>
      simp only [execute, accessMemory_eq false inside exclusive_read, accessLoop,
        translate_read tame inside, if_pos valid, bind, Except.bind, pure,
        Except.pure]
      rfl
  | unseen inside invalid =>
      simp only [execute, accessMemory_eq false inside exclusive_read, accessLoop,
        translate_read tame inside, if_neg invalid, onKernel,
        handlePageFault_read inside, bind, Except.bind, pure, Except.pure]
      rfl
  | written inside writes =>
      have ran := accessMemory_of_written (s := off k) env tame inside writes
      simp only [execute, ran, bind, Except.bind, pure, Except.pure]
      cases writes with
      | granted => rfl
      | refused => rfl
      | resolved => rfl
      | @lost _ _ ret => cases ret <;> rfl
  | moved ran =>
      simp only [execute, switchProcess, bind, Except.bind, pure, Except.pure]
      simp only [off, ran, flushTlb_off]
      rfl

theorem translate_outside {vpn : Nat} (rw : Nat) (outside : nrPages ≤ vpn) :
    translate false rw vpn (off k) = .error .outOfRange :=
  translate_off_error (walk_of_le rw _ outside)

theorem accessMemory_outside {t : Bool} {vpn rw : Nat} {s : System}
    (outside : nrPages ≤ vpn) :
    accessMemory t env vpn rw s = .error .assertFailed := by
  have failed : ¬ vpn < nrPtesPerPage * nrPtesPerPage := Nat.not_lt.mpr outside
  unfold accessMemory cAssert
  rw [if_neg failed]
  split
  · rfl
  · rfl

/-- A valid PTE can be cleared. -/
theorem exists_cleared {vpn : Nat} (tame : Tame k)
    (valid : (k.pte vpn).valid = true) : ∃ k', Cleared k vpn k' := by
  obtain ⟨pd, isDir⟩ := Process.dir_of_valid valid
  have bound := tame.inside _ k.current_mem_all _ valid
  have isFrame : (pd (pteIdx vpn)).pfn =
      (⟨_, bound⟩ : Fin nrPageframes).val := by rw [← Kernel.pte_of_dir isDir]
  exact ⟨_, .cleared isDir isFrame⟩

/-- The directory of a page in a tame kernel can be opened. -/
theorem exists_opened (env : Env) (tame : Tame k) (i : Fin nrPtesPerPage) :
    ∃ pd mallocs, Opened env k i pd mallocs := by
  cases outer : k.current.outerPtes i with
  | null => exact ⟨_, _, .fresh outer⟩
  | dir pd => exact ⟨_, _, .existing outer⟩
  | wild => exact absurd outer (tame.owned _ k.current_mem_all i)

/-- A command does nothing but what its cases say. -/
theorem effect_of_execute (tame : Tame k) {c : Command} {out : Outcome}
    {pass : Pass System} (ran : execute false env c (off k) = .ok (out, pass)) :
    ∃ k', pass = out.pass (off k') ∧ Effect env k c out k' := by
  -- a case that applies determines the result
  have listed {out' : Outcome} {k' : Kernel} (effect : Effect env k c out' k') :
      ∃ k', pass = out.pass (off k') ∧ Effect env k c out k' := by
    rw [execute_of_effect tame effect] at ran
    obtain ⟨rfl, rfl⟩ := Prod.mk.inj (Except.ok.inj ran)
    exact ⟨k', rfl, effect⟩
  cases c with
  | alloc vpn rw =>
      rcases Nat.lt_or_ge vpn nrPages with inside | outside
      · by_cases valid : (k.pte vpn).valid = true
        · exact listed (.present inside valid)
        · cases free : freeFrame k with
          | none => exact listed (.full inside valid free)
          | some pfnum =>
              obtain ⟨pd, mallocs, opened⟩ :=
                exists_opened env tame (slotOf vpn).1
              exact listed (.taken inside valid free opened)
      · simp [execute, requestPage, (cAssert_rwflag rw).1,
          (cAssert_rwflag rw).2, translate_outside _ outside, bind,
          Except.bind] at ran
  | free vpn =>
      rcases Nat.lt_or_ge vpn nrPages with inside | outside
      · by_cases valid : (k.pte vpn).valid = true
        · obtain ⟨k', clears⟩ := exists_cleared tame valid
          exact listed (.cleared inside valid clears)
        · exact listed (.absent inside valid)
      · simp [execute, releasePage, translate_outside _ outside, bind,
          Except.bind] at ran
  | read vpn =>
      rcases Nat.lt_or_ge vpn nrPages with inside | outside
      · by_cases valid : (k.pte vpn).valid = true
        · exact listed (.seen inside valid)
        · exact listed (.unseen inside valid)
      · simp [execute, accessMemory_outside outside, bind, Except.bind] at ran
  | write vpn =>
      rcases Nat.lt_or_ge vpn nrPages with inside | outside
      · cases accessed : accessMemory false env vpn accessWrite (off k) with
        | error fault => simp [execute, accessed, bind, Except.bind] at ran
        | ok result =>
            obtain ⟨out', s'⟩ := result
            obtain ⟨k', rfl, writes⟩ :=
              written_of_accessMemory (s := off k) tame inside accessed
            exact listed (.written inside writes)
      · simp [execute, accessMemory_outside outside, bind, Except.bind] at ran
  | switch pid =>
      cases switched : switchKernel env pid k with
      | error fault =>
          simp only [execute, switchProcess, bind, Except.bind] at ran
          simp [off, switched] at ran
      | ok k' => exact listed (.moved switched)

/-! ### Kernels stay tame -/

theorem Cleared.edits {vpn : Nat} (clears : Cleared k vpn k') :
    ∃ pfnum : Fin nrPageframes, (k.pte vpn).pfn = pfnum.val ∧
      Edits k k' vpn zeroPte ∧
      k'.mapcounts = Function.update k.mapcounts pfnum
        (subUInt (k.mapcounts pfnum) 1) := by
  cases clears with
  | @cleared pd pfnum isDir isFrame =>
      refine ⟨pfnum, ?_, edits_storePte (dropShare k pfnum)
        (agrees_of_dir isDir) rfl rfl _, rfl⟩
      rw [Kernel.pte_of_dir isDir]
      exact isFrame

theorem Written.tame {vpn : Nat} {out : Outcome} (tame : Tame k)
    (writes : Written k vpn out k') : Tame k' := by
  cases writes with
  | granted => exact tame
  | refused _ handled => exact (handled.served tame).tame tame
  | resolved _ handled => exact (handled.served tame).tame tame
  | lost _ handled _ handled' =>
      have tameNow := (handled.served tame).tame tame
      exact (handled'.served tameNow).tame tameNow

/-- Tameness does not depend on the order of the processes. -/
theorem Tame.perm (tame : Tame k) (perm : k'.all.Perm k.all)
    (counts : k'.mapcounts = k.mapcounts) : Tame k' where
  owned := fun p member => tame.owned p (perm.mem_iff.mp member)
  inside := fun p member => tame.inside p (perm.mem_iff.mp member)
  small := fun x => counts ▸ tame.small x

theorem Moved.tame {pid : Nat} (tame : Tame k) (moved : Moved k pid k') :
    Tame k' := by
  cases moved with
  | found isFound => exact tame.perm (changeCurrent_perm isFound) rfl
  | @forked k₁ nxt unknown forks =>
      have parent := k.current_mem_all
      have members {p : Process}
          (member : p ∈ (changeCurrent nxt k₁.processes k₁).all) :
          p = nxt ∨ p = k₁.current ∨ p ∈ k.processes := by
        have listed := changeCurrent_perm_fork.mem_iff.mp member
        simpa [Kernel.all, forks.processes] using listed
      refine ⟨fun p member => ?_, fun p member slot valid => ?_, fun x => ?_⟩
      · rcases members member with rfl | rfl | other
        · exact forks.childOwned
        · exact fun i isWild => tame.owned _ parent i (forks.wild i isWild)
        · exact tame.owned p (List.mem_cons_of_mem _ other)
      · rcases members member with rfl | rfl | other
        · rw [forks.child] at valid ⊢
          rw [Pte.child_valid] at valid
          rw [Pte.child_of_valid valid, Pte.share_pfn]
          exact tame.inside _ parent slot valid
        · rw [forks.parent] at valid ⊢
          rw [Pte.share_valid] at valid
          rw [Pte.share_pfn]
          exact tame.inside _ parent slot valid
        · exact tame.inside p (List.mem_cons_of_mem _ other) slot valid
      · change k₁.mapcounts x < _
        rw [forks.counts]
        exact toUInt_lt _

theorem Effect.tame (zero : env.ZeroFilled) (tame : Tame k) {c : Command}
    {out : Outcome} (effect : Effect env k c out k') : Tame k' := by
  cases effect with
  | present => exact tame
  | full => exact tame
  | absent => exact tame
  | seen => exact tame
  | unseen => exact tame
  | @taken _ _ pfnum _ _ _ _ _ opened =>
      exact tame.edits (takeFrame_edits (opened.agrees zero))
        (fun _ => pfnum.isLt) (small_update tame.small (by decide))
  | cleared _ _ clears =>
      obtain ⟨pfnum, _, edits, counts⟩ := clears.edits
      refine tame.edits edits (fun valid => by simp [zeroPte] at valid) ?_
      rw [counts]
      exact small_update tame.small (subUInt_one_lt (tame.small pfnum))
  | written _ writes => exact writes.tame tame
  | moved ran => exact (moved_of_switchKernel zero tame ran).tame tame

theorem initKernel_tame : Tame initKernel where
  owned := by simp [Kernel.all, initKernel]
  inside := by simp [Kernel.all, initKernel, Process.entry, zeroPte]
  small := by simp [initKernel]

end OsPAs.Vm
