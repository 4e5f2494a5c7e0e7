/-
Module: OsPAs.Vm.Edits
Purpose: What the page table functions do, case by case: one lemma from the
  case to the result and one from the result back to the case.
Trusted boundary: none
Main exports: Opened, takeFrame, allocPage_of_opened, allocPage_ok, Cleared,
  clearPte_iff, Handled, handlePageFault_of_handled,
  handled_of_handlePageFault, walk_of_lt
-/
import OsPAs.Vm.Tables

namespace OsPAs.Vm

open Lib

variable {env : Env} {k k' : Kernel} {vpn rw ret : Nat}

/-! ### Stores -/

/-- The kernel with another PTE for a page whose directory is `pd`. -/
def storePte (k : Kernel) (vpn : Nat) (pd : Directory) (pte : Pte) : Kernel :=
  k.setDirectory (slotOf vpn).1 (Function.update pd (pteIdx vpn) pte)

theorem storePte_dir (k : Kernel) (vpn : Nat) (pd : Directory) (pte : Pte) :
    (storePte k vpn pd pte).current.outerPtes (slotOf vpn).1 =
      .dir (Function.update pd (pteIdx vpn) pte) :=
  Function.update_self ..

/-- A PTE that is stored and stored again keeps the second value. -/
theorem storePte_storePte (k : Kernel) (vpn : Nat) (pd : Directory)
    (pte pte' : Pte) :
    storePte (storePte k vpn pd pte) vpn (Function.update pd (pteIdx vpn) pte)
      pte' = storePte k vpn pd pte' := by
  simp [storePte]

/-- The kernel with one mapping of frame `pfnum` less. -/
def dropShare (k : Kernel) (pfnum : Fin nrPageframes) : Kernel :=
  k.setMapcount pfnum (subUInt (k.mapcounts pfnum) 1)

/-! ### The walk -/

/-- The PTE allows the access. -/
def Pte.Allows (pte : Pte) (rw : Nat) : Prop :=
  pte.valid = true ∧ (rw &&& accessWrite ≠ 0 → pte.rw &&& accessWrite ≠ 0)

instance (pte : Pte) (rw : Nat) : Decidable (pte.Allows rw) :=
  inferInstanceAs (Decidable (_ ∧ _))

theorem allows_of_rw {pte : Pte} (valid : pte.valid = true)
    (isRw : pte.rw = 0x03) (rw : Nat) : pte.Allows rw := by
  refine ⟨valid, fun _ => ?_⟩
  rw [isRw]
  decide

/-- The walk faults outside of the page table and at a wild pointer, and else
gives the PTE if it allows the access. -/
theorem walk_of_lt (rw : Nat) {p : Process} (inside : vpn < nrPages)
    (owned : p.outerPtes (slotOf vpn).1 ≠ .wild) :
    walk rw vpn p =
      .ok (if (p.entry (slotOf vpn)).Allows rw
        then some (p.entry (slotOf vpn)) else none) := by
  unfold walk
  rw [pdIdx_of_lt inside]
  simp only [bind, Except.bind]
  cases outer : p.outerPtes (slotOf vpn).1 with
  | wild => exact absurd outer owned
  | null =>
      have isZero : p.entry (slotOf vpn) = zeroPte := by
        simp only [Process.entry, outer]
      rw [isZero]
      simp [zeroPte, Pte.Allows, pure, Except.pure]
  | dir pd =>
      rw [Process.entry_slotOf outer]
      by_cases valid : (pd (pteIdx vpn)).valid = true
      · by_cases denied : rw &&& accessWrite ≠ 0 ∧
            (pd (pteIdx vpn)).rw &&& accessWrite = 0
        · have refused : ¬ (pd (pteIdx vpn)).Allows rw := fun allows =>
            allows.2 denied.1 denied.2
          simp only [if_neg (not_not.mpr valid), if_pos denied, if_neg refused]
          rfl
        · have allows : (pd (pteIdx vpn)).Allows rw :=
            ⟨valid, fun writes readOnly => denied ⟨writes, readOnly⟩⟩
          simp only [if_neg (not_not.mpr valid), if_neg denied, if_pos allows]
          rfl
      · have refused : ¬ (pd (pteIdx vpn)).Allows rw := fun allows =>
          valid allows.1
        simp only [if_pos valid, if_neg refused]
        rfl

theorem walk_of_le (rw : Nat) (p : Process) (outside : nrPages ≤ vpn) :
    walk rw vpn p = .error .outOfRange := by
  unfold walk
  rw [pdIdx_of_le outside]
  rfl

theorem walk_of_wild (rw : Nat) {p : Process} (inside : vpn < nrPages)
    (wild : p.outerPtes (slotOf vpn).1 = .wild) :
    walk rw vpn p = .error .wildPointer := by
  unfold walk
  rw [pdIdx_of_lt inside]
  simp [bind, Except.bind, wild]

/-- A walk that succeeds gives the PTE of a mapped page. -/
theorem walk_some {p : Process} {pte : Pte}
    (walked : walk rw vpn p = .ok (some pte)) :
    vpn < nrPages ∧ pte = p.entry (slotOf vpn) ∧ pte.Allows rw := by
  rcases Nat.lt_or_ge vpn nrPages with inside | outside
  · by_cases wild : p.outerPtes (slotOf vpn).1 = .wild
    · rw [walk_of_wild rw inside wild] at walked
      simp at walked
    · rw [walk_of_lt rw inside wild] at walked
      split at walked
      · rename_i allows
        obtain rfl := Option.some.inj (Except.ok.inj walked)
        exact ⟨inside, rfl, allows⟩
      · simp at walked
  · rw [walk_of_le rw p outside] at walked
    simp at walked

/-- A walk that finds nothing comes from a PTE that does not allow the
access. -/
theorem walk_none {p : Process} (walked : walk rw vpn p = .ok none) :
    vpn < nrPages ∧ ¬ (p.entry (slotOf vpn)).Allows rw := by
  rcases Nat.lt_or_ge vpn nrPages with inside | outside
  · by_cases wild : p.outerPtes (slotOf vpn).1 = .wild
    · rw [walk_of_wild rw inside wild] at walked
      simp at walked
    · rw [walk_of_lt rw inside wild] at walked
      split at walked
      · simp at walked
      · rename_i denied
        exact ⟨inside, denied⟩
  · rw [walk_of_le rw p outside] at walked
    simp at walked

/-! ### Allocation -/

theorem freeFrame_some {pfnum : Fin nrPageframes}
    (free : freeFrame k = some pfnum) : k.mapcounts pfnum = 0 := by
  have found := List.find?_some free
  simpa using found

theorem freeFrame_none : freeFrame k = none ↔ ∀ x, k.mapcounts x ≠ 0 := by
  simp [freeFrame]

/-- The directory that `alloc_page` stores its PTE in, and the number of blocks
allocated once it is there. -/
inductive Opened (env : Env) (k : Kernel) (i : Fin nrPtesPerPage) :
    Directory → Nat → Prop where
  | existing {pd : Directory} (isDir : k.current.outerPtes i = .dir pd) :
      Opened env k i pd k.mallocs
  | fresh (isNull : k.current.outerPtes i = .null) :
      Opened env k i (env.directory k.mallocs) (k.mallocs + 1)

/-- The kernel after `alloc_page` has given frame `pfnum` to a page. -/
def takeFrame (k : Kernel) (vpn rw : Nat) (pfnum : Fin nrPageframes)
    (pd : Directory) (mallocs : Nat) : Kernel :=
  storePte { k.setMapcount pfnum 1 with mallocs := mallocs } vpn pd
    { valid := true, rw := rw, pfn := pfnum, priv := rw }

theorem allocPage_of_opened (rw : Nat) {pfnum : Fin nrPageframes}
    {pd : Directory} {mallocs : Nat} (inside : vpn < nrPages)
    (free : freeFrame k = some pfnum)
    (opened : Opened env k (slotOf vpn).1 pd mallocs) :
    allocPage env vpn rw k =
      .ok (pfnum.val, takeFrame k vpn rw pfnum pd mallocs) := by
  unfold allocPage
  rw [free]
  simp only [bind, Except.bind, pdIdx_of_lt inside, freeFrame_some free,
    Kernel.setMapcount_current]
  cases opened with
  | existing isDir => simp only [isDir]; rfl
  | fresh isNull => simp only [isNull]; rfl

theorem allocPage_of_full (env : Env) (vpn rw : Nat)
    (full : freeFrame k = none) :
    allocPage env vpn rw k = .ok (allocFailed, k) := by
  unfold allocPage
  rw [full]

/-- An allocation that returns found no free frame, or took one. -/
theorem allocPage_ok (ran : allocPage env vpn rw k = .ok (ret, k')) :
    freeFrame k = none ∧ ret = allocFailed ∧ k' = k ∨
      ∃ pfnum pd mallocs, vpn < nrPages ∧ freeFrame k = some pfnum ∧
        Opened env k (slotOf vpn).1 pd mallocs ∧ ret = pfnum.val ∧
        k' = takeFrame k vpn rw pfnum pd mallocs := by
  cases free : freeFrame k with
  | none =>
      rw [allocPage_of_full env vpn rw free] at ran
      obtain ⟨rfl, rfl⟩ := Prod.mk.inj (Except.ok.inj ran)
      exact Or.inl ⟨rfl, rfl, rfl⟩
  | some pfnum =>
      right
      have taken (pd : Directory) (mallocs : Nat) (inside : vpn < nrPages)
          (opened : Opened env k (slotOf vpn).1 pd mallocs) :
          ∃ pfnum' pd mallocs, vpn < nrPages ∧ some pfnum = some pfnum' ∧
            Opened env k (slotOf vpn).1 pd mallocs ∧ ret = pfnum'.val ∧
            k' = takeFrame k vpn rw pfnum' pd mallocs := by
        rw [allocPage_of_opened rw inside free opened] at ran
        obtain ⟨rfl, rfl⟩ := Prod.mk.inj (Except.ok.inj ran)
        exact ⟨pfnum, pd, mallocs, inside, rfl, opened, rfl, rfl⟩
      rcases Nat.lt_or_ge vpn nrPages with inside | outside
      · cases outer : k.current.outerPtes (slotOf vpn).1 with
        | null => exact taken _ _ inside (.fresh outer)
        | dir pd => exact taken _ _ inside (.existing outer)
        | wild =>
            simp [allocPage, free, pdIdx_of_lt inside, outer, bind,
              Except.bind] at ran
      · simp [allocPage, free, pdIdx_of_le outside, bind, Except.bind] at ran

/-! ### Deallocation -/

/-- What `free_page` makes of the kernel. -/
inductive Cleared (k : Kernel) (vpn : Nat) : Kernel → Prop where
  | cleared {pd : Directory} {pfnum : Fin nrPageframes}
      (isDir : k.current.outerPtes (slotOf vpn).1 = .dir pd)
      (isFrame : (pd (pteIdx vpn)).pfn = pfnum.val) :
      Cleared k vpn (storePte (dropShare k pfnum) vpn pd zeroPte)

theorem frame_eq_ok {pfn : Nat} {pfnum : Fin nrPageframes} :
    frame pfn = .ok pfnum ↔ pfn = pfnum.val := by
  unfold frame
  split
  · rename_i inside
    rw [Except.ok.injEq, Fin.ext_iff]
  · rename_i outside
    simp only [reduceCtorEq, false_iff]
    rintro rfl
    exact outside pfnum.isLt

theorem clearPte_iff (inside : vpn < nrPages) :
    clearPte vpn k = .ok k' ↔ Cleared k vpn k' := by
  constructor
  · intro ran
    unfold clearPte at ran
    rw [pdIdx_of_lt inside] at ran
    simp only [bind, Except.bind] at ran
    cases outer : k.current.outerPtes (slotOf vpn).1 with
    | null => simp [outer, Outer.deref] at ran
    | wild => simp [outer, Outer.deref] at ran
    | dir pd =>
        simp only [outer, Outer.deref] at ran
        cases isFrame : frame (pd (pteIdx vpn)).pfn with
        | error fault => simp [isFrame] at ran
        | ok pfnum =>
            simp only [isFrame] at ran
            obtain rfl := Except.ok.inj ran
            exact .cleared outer (frame_eq_ok.mp isFrame)
  · rintro ⟨isDir, isFrame⟩
    unfold clearPte
    rw [pdIdx_of_lt inside]
    simp only [bind, Except.bind, isDir, Outer.deref, frame_eq_ok.mpr isFrame]
    rfl

/-! ### Page faults -/

/-- What `handle_page_fault` does about a write to a page that has a
directory. -/
inductive Handled (k : Kernel) (vpn : Nat) : Bool → Kernel → Prop where
  /-- the page was allocated for reading -/
  | readOnly {pd : Directory}
      (isDir : k.current.outerPtes (slotOf vpn).1 = .dir pd)
      (isRead : (pd (pteIdx vpn)).priv = accessRead) : Handled k vpn false k
  /-- the frame has one mapping, which becomes writable -/
  | alone {pd : Directory} {pfnum : Fin nrPageframes}
      (isDir : k.current.outerPtes (slotOf vpn).1 = .dir pd)
      (notRead : (pd (pteIdx vpn)).priv ≠ accessRead)
      (isFrame : (pd (pteIdx vpn)).pfn = pfnum.val)
      (one : asInt (k.mapcounts pfnum) = 1) :
      Handled k vpn true (storePte k vpn pd
        { pd (pteIdx vpn) with rw := 0x03, priv := accessWrite })
  /-- the frame is shared and the page gets one of its own -/
  | copied {pd : Directory} {pfnum new : Fin nrPageframes}
      (isDir : k.current.outerPtes (slotOf vpn).1 = .dir pd)
      (notRead : (pd (pteIdx vpn)).priv ≠ accessRead)
      (isFrame : (pd (pteIdx vpn)).pfn = pfnum.val)
      (shared : 2 ≤ asInt (k.mapcounts pfnum))
      (free : freeFrame (dropShare k pfnum) = some new) :
      Handled k vpn true (storePte ((dropShare k pfnum).setMapcount new 1) vpn
        pd { valid := true, rw := 0x03, pfn := new, priv := accessWrite })
  /-- the frame is shared and there is no other one -/
  | exhausted {pd : Directory} {pfnum : Fin nrPageframes}
      (isDir : k.current.outerPtes (slotOf vpn).1 = .dir pd)
      (notRead : (pd (pteIdx vpn)).priv ≠ accessRead)
      (isFrame : (pd (pteIdx vpn)).pfn = pfnum.val)
      (shared : 2 ≤ asInt (k.mapcounts pfnum))
      (full : freeFrame (dropShare k pfnum) = none) :
      Handled k vpn true (storePte (dropShare k pfnum) vpn pd
        { pd (pteIdx vpn) with rw := 0x03 })
  /-- the map count, read as an `int`, is neither one nor more -/
  | uncounted {pd : Directory} {pfnum : Fin nrPageframes}
      (isDir : k.current.outerPtes (slotOf vpn).1 = .dir pd)
      (notRead : (pd (pteIdx vpn)).priv ≠ accessRead)
      (isFrame : (pd (pteIdx vpn)).pfn = pfnum.val)
      (few : asInt (k.mapcounts pfnum) < 1) : Handled k vpn false k

theorem handlePageFault_of_handled {ret : Bool} (inside : vpn < nrPages)
    (handled : Handled k vpn ret k') :
    handlePageFault env vpn accessWrite k = .ok (ret, k') := by
  unfold handlePageFault
  rw [pdIdx_of_lt inside]
  cases handled with
  | readOnly isDir isRead =>
      simp [bind, Except.bind, pure, Except.pure, isDir, Outer.deref, isRead]
  | alone isDir notRead isFrame one =>
      simp [bind, Except.bind, pure, Except.pure, isDir, Outer.deref, notRead,
        frame_eq_ok.mpr isFrame, one, storePte]
  | @uncounted pd pfnum isDir notRead isFrame few =>
      have notOne : asInt (k.mapcounts pfnum) ≠ 1 := ne_of_lt few
      have notMore : ¬ 2 ≤ asInt (k.mapcounts pfnum) := by omega
      simp [bind, Except.bind, pure, Except.pure, isDir, Outer.deref, notRead,
        frame_eq_ok.mpr isFrame, notOne, notMore]
  | @copied pd pfnum new isDir notRead isFrame shared free =>
      have notOne : asInt (k.mapcounts pfnum) ≠ 1 := by omega
      have opened : Opened env (dropShare k pfnum) (slotOf vpn).1 pd
          (dropShare k pfnum).mallocs := .existing isDir
      have taken := allocPage_of_opened accessWrite inside free opened
      have small : new.val ≠ 2 ^ 64 - 1 := by
        have bound := new.isLt
        unfold nrPageframes at bound
        omega
      unfold dropShare at taken
      simp only [bind, Except.bind, pure, Except.pure, isDir, Outer.deref,
        if_true, notRead, ne_eq, not_false_eq_true, frame_eq_ok.mpr isFrame,
        notOne, if_false, shared, taken]
      rw [takeFrame, storePte_dir]
      simp only [Function.update_self, decide_eq_true small]
      exact congrArg (fun k' => Except.ok (true, k'))
        (storePte_storePte _ vpn pd _ _)
  | @exhausted pd pfnum isDir notRead isFrame shared full =>
      have notOne : asInt (k.mapcounts pfnum) ≠ 1 := by omega
      have failed := allocPage_of_full env vpn accessWrite full
      unfold dropShare at failed
      simp only [bind, Except.bind, pure, Except.pure, isDir, Outer.deref,
        if_true, notRead, ne_eq, not_false_eq_true, frame_eq_ok.mpr isFrame,
        notOne, if_false, shared, failed, Kernel.setMapcount_current]
      rfl

/-- The page fault handler does nothing but what `Handled` lists. -/
theorem handled_of_handlePageFault {ret : Bool} (inside : vpn < nrPages)
    (ran : handlePageFault env vpn accessWrite k = .ok (ret, k')) :
    Handled k vpn ret k' := by
  -- a case that is listed determines the result
  have listed {ret' : Bool} {k'' : Kernel} (handled : Handled k vpn ret' k'') :
      Handled k vpn ret k' := by
    rw [handlePageFault_of_handled inside handled] at ran
    obtain ⟨rfl, rfl⟩ := Prod.mk.inj (Except.ok.inj ran)
    exact handled
  cases outer : k.current.outerPtes (slotOf vpn).1 with
  | null =>
      simp [handlePageFault, pdIdx_of_lt inside, outer, Outer.deref, bind,
        Except.bind] at ran
  | wild =>
      simp [handlePageFault, pdIdx_of_lt inside, outer, Outer.deref, bind,
        Except.bind] at ran
  | dir pd =>
      by_cases isRead : (pd (pteIdx vpn)).priv = accessRead
      · exact listed (.readOnly outer isRead)
      · cases isFrame : frame (pd (pteIdx vpn)).pfn with
        | error fault =>
            simp [handlePageFault, pdIdx_of_lt inside, outer, Outer.deref,
              isRead, isFrame, bind, Except.bind] at ran
        | ok pfnum =>
            have isFrame := frame_eq_ok.mp isFrame
            by_cases one : asInt (k.mapcounts pfnum) = 1
            · exact listed (.alone outer isRead isFrame one)
            · by_cases shared : 2 ≤ asInt (k.mapcounts pfnum)
              · cases free : freeFrame (dropShare k pfnum) with
                | none => exact listed (.exhausted outer isRead isFrame shared free)
                | some new => exact listed (.copied outer isRead isFrame shared free)
              · exact listed (.uncounted outer isRead isFrame (by omega))

/-- Only the flag for writing alone is served by the page fault handler. -/
theorem handlePageFault_of_ne (inside : vpn < nrPages)
    (notWrite : rw ≠ accessWrite) :
    handlePageFault env vpn rw k = .ok (false, k) := by
  simp [handlePageFault, pdIdx_of_lt inside, notWrite, bind, Except.bind, pure,
    Except.pure]

theorem handlePageFault_read (inside : vpn < nrPages) :
    handlePageFault env vpn accessRead k = .ok (false, k) :=
  handlePageFault_of_ne inside (by decide)

/-! ### Accesses without the TLB -/

section Off

variable {s : System}

theorem translate_off {result : Option Pte}
    (walked : walk rw vpn s.kernel.current = .ok result) :
    translate false rw vpn s =
      .ok (result.map fun pte => (pte.pfn, false), s) := by
  unfold translate
  cases result with
  | none => simp [walked, bind, Except.bind, pure, Except.pure]
  | some pte => simp [walked, bind, Except.bind, pure, Except.pure]

theorem translate_off_error {fault : Fault}
    (walked : walk rw vpn s.kernel.current = .error fault) :
    translate false rw vpn s = .error fault := by
  simp [translate, walked, bind, Except.bind]

end Off

end OsPAs.Vm
