/-
Module: OsPAs.Vm.Uninitialised
Purpose: Two runs of the same commands without `-t` that differ in what fresh
  memory holds: they print the same, step by step, as long as the code reads
  nothing that differs.
Trusted boundary: none
Main exports: Pte.Equiv, Kernel.Equiv, Answer, answer, ForkReads, Unread,
  execute_matches, uninitialised_unobserved, uninitialised_observed
-/
import OsPAs.Lib.Queues
import OsPAs.Vm.Effects
import OsPAs.Vm.Pids

namespace OsPAs.Vm

open Lib

variable {env env' : Env} {k k' : Kernel} {vpn rw : Nat}

/-! ### Kernels that differ in what was never written -/

/-- The PTEs are both invalid, or equal. -/
structure Pte.Equiv (pte pte' : Pte) : Prop where
  valid : pte.valid = pte'.valid
  same : pte.valid = true → pte = pte'

/-- The directories have equivalent PTEs. -/
def Directory.Equiv (pd pd' : Directory) : Prop := ∀ j, (pd j).Equiv (pd' j)

/-- The entries of `outer_ptes` point to nothing, nowhere, or to equivalent
directories. -/
inductive Outer.Equiv : Outer → Outer → Prop where
  | null : Outer.Equiv .null .null
  | wild : Outer.Equiv .wild .wild
  | dir {pd pd' : Directory} (ptes : Directory.Equiv pd pd') :
      Outer.Equiv (.dir pd) (.dir pd')

/-- The processes have the same pid and equivalent page tables. -/
structure Process.Equiv (p p' : Process) : Prop where
  pid : p.pid = p'.pid
  tables : ∀ i, (p.outerPtes i).Equiv (p'.outerPtes i)

/-- The kernels have equivalent processes, the same map counts and as many
blocks in use. -/
structure Kernel.Equiv (k k' : Kernel) : Prop where
  current : k.current.Equiv k'.current
  processes : List.Forall₂ Process.Equiv k.processes k'.processes
  mapcounts : k.mapcounts = k'.mapcounts
  mallocs : k.mallocs = k'.mallocs

/-- The simulators have equivalent kernels and the same TLB. -/
structure System.Equiv (s s' : System) : Prop where
  kernel : s.kernel.Equiv s'.kernel
  tlb : s.tlb = s'.tlb

theorem Pte.Equiv.refl (pte : Pte) : pte.Equiv pte := ⟨rfl, fun _ => rfl⟩

theorem Outer.Equiv.refl (outer : Outer) : outer.Equiv outer :=
  match outer with
  | .null => .null
  | .wild => .wild
  | .dir pd => .dir fun j => .refl (pd j)

theorem Process.Equiv.refl (p : Process) : p.Equiv p :=
  ⟨rfl, fun i => .refl (p.outerPtes i)⟩

theorem initKernel_equiv : initKernel.Equiv initKernel :=
  ⟨.refl _, .nil, rfl, rfl⟩

theorem Directory.Equiv.update {pd pd' : Directory} {pte pte' : Pte}
    (equiv : Directory.Equiv pd pd') (j : Fin nrPtesPerPage)
    (same : pte.Equiv pte') :
    Directory.Equiv (Function.update pd j pte) (Function.update pd' j pte') := by
  intro i
  rw [Function.update_apply, Function.update_apply]
  split
  · exact same
  · exact equiv i

theorem Process.Equiv.setDirectory {p p' : Process} {pd pd' : Directory}
    (equiv : p.Equiv p') (i : Fin nrPtesPerPage)
    (ptes : Directory.Equiv pd pd') :
    (p.setDirectory i pd).Equiv (p'.setDirectory i pd') where
  pid := equiv.pid
  tables := fun j => by
    change (Function.update p.outerPtes i (.dir pd) j).Equiv
      (Function.update p'.outerPtes i (.dir pd') j)
    rw [Function.update_apply, Function.update_apply]
    split
    · exact .dir ptes
    · exact equiv.tables j

theorem Kernel.Equiv.setDirectory {pd pd' : Directory} (equiv : k.Equiv k')
    (i : Fin nrPtesPerPage) (ptes : Directory.Equiv pd pd') :
    (k.setDirectory i pd).Equiv (k'.setDirectory i pd') :=
  ⟨equiv.current.setDirectory i ptes, equiv.processes, equiv.mapcounts,
    equiv.mallocs⟩

theorem Kernel.Equiv.setMapcount (equiv : k.Equiv k')
    (pfnum : Fin nrPageframes) (count : Nat) :
    (k.setMapcount pfnum count).Equiv (k'.setMapcount pfnum count) where
  current := equiv.current
  processes := equiv.processes
  mapcounts := by
    rw [Kernel.setMapcount_mapcounts, Kernel.setMapcount_mapcounts,
      equiv.mapcounts]
  mallocs := equiv.mallocs

theorem Kernel.Equiv.freeFrame (equiv : k.Equiv k') :
    OsPAs.Vm.freeFrame k = OsPAs.Vm.freeFrame k' := by
  unfold OsPAs.Vm.freeFrame
  rw [equiv.mapcounts]

/-- Two equivalent entries are both null, both garbage or both directories. -/
theorem Outer.Equiv.alike {outer outer' : Outer} (equiv : outer.Equiv outer') :
    (outer = .null ∧ outer' = .null) ∨ (outer = .wild ∧ outer' = .wild) ∨
      ∃ pd pd', outer = .dir pd ∧ outer' = .dir pd' ∧
        Directory.Equiv pd pd' := by
  cases equiv with
  | null => exact Or.inl ⟨rfl, rfl⟩
  | wild => exact Or.inr (Or.inl ⟨rfl, rfl⟩)
  | dir ptes => exact Or.inr (Or.inr ⟨_, _, rfl, rfl, ptes⟩)

theorem Outer.Equiv.deref {outer outer' : Outer} (equiv : outer.Equiv outer') :
    Agree Directory.Equiv outer.deref outer'.deref := by
  cases equiv with
  | null => exact .fault _
  | wild => exact .fault _
  | dir ptes => exact .ok ptes

/-! ### Translations -/

/-- Invalid PTEs are all the same to the walk. -/
theorem Process.Equiv.walk {p p' : Process} (equiv : p.Equiv p')
    (rw vpn : Nat) : OsPAs.Vm.walk rw vpn p = OsPAs.Vm.walk rw vpn p' := by
  unfold OsPAs.Vm.walk
  cases pdIdx vpn with
  | error fault => rfl
  | ok i =>
      have table := equiv.tables i
      simp only [bind, Except.bind]
      generalize p.outerPtes i = outer at table ⊢
      generalize p'.outerPtes i = outer' at table ⊢
      cases table with
      | null => rfl
      | wild => rfl
      | @dir pd pd' ptes =>
          have same := ptes (pteIdx vpn)
          by_cases valid : (pd (pteIdx vpn)).valid = true
          · simp only [same.same valid]
          · have invalid := valid
            rw [same.valid] at invalid
            simp only [if_pos valid, if_pos invalid]

theorem translate_agree {s s' : System} (equiv : s.Equiv s') (rw vpn : Nat) :
    Agree (fun a b => a.1 = b.1 ∧ a.2 = s ∧ b.2 = s')
      (translate false rw vpn s) (translate false rw vpn s') := by
  have walked := equiv.kernel.current.walk rw vpn
  cases isWalk : walk rw vpn s.kernel.current with
  | error fault =>
      rw [translate_off_error isWalk, translate_off_error (walked ▸ isWalk)]
      exact .fault fault
  | ok result =>
      rw [translate_off isWalk, translate_off (walked ▸ isWalk)]
      exact .ok ⟨rfl, rfl, rfl⟩

theorem onKernel_agree {α : Type} {f f' : Kernel → Except Fault (α × Kernel)}
    {s s' : System} {related : α × Kernel → α × Kernel → Prop}
    (equiv : s.Equiv s') (agree : Agree related (f s.kernel) (f' s'.kernel)) :
    Agree (fun a b => related (a.1, a.2.kernel) (b.1, b.2.kernel) ∧
        a.2.tlb = b.2.tlb) (onKernel f s) (onKernel f' s') :=
  agree.bind fun _ _ results => .ok ⟨results, equiv.tlb⟩

/-! ### Allocations and deallocations -/

/-- The index into `outer_ptes` of a page. -/
theorem pdIdx_eq {i : Fin nrPtesPerPage} (isIdx : pdIdx vpn = .ok i) :
    i = (slotOf vpn).1 := by
  by_cases inside : vpn < nrPages
  · exact Except.ok.inj (isIdx.symm.trans (pdIdx_of_lt inside))
  · rw [pdIdx_of_le (Nat.le_of_not_lt inside)] at isIdx
    simp at isIdx

/-- A directory that `alloc_page` opens for the page has the same contents in
both runs, but for the PTE that is stored. -/
def AllocReads (env env' : Env) (vpn : Nat) (k k' : Kernel) : Prop :=
  freeFrame k ≠ none → k.current.outerPtes (slotOf vpn).1 = .null →
    ∀ j, j ≠ pteIdx vpn →
      (env.directory k.mallocs j).Equiv (env'.directory k'.mallocs j)

theorem allocPage_agree (equiv : k.Equiv k') (rw : Nat)
    (reads : AllocReads env env' vpn k k') :
    Agree (fun a b => a.1 = b.1 ∧ a.2.Equiv b.2) (allocPage env vpn rw k)
      (allocPage env' vpn rw k') := by
  unfold allocPage
  rw [← equiv.freeFrame]
  cases free : freeFrame k with
  | none => exact .ok ⟨rfl, equiv⟩
  | some pfnum =>
      rw [← equiv.mapcounts]
      have counted := equiv.setMapcount pfnum (toUInt (k.mapcounts pfnum + 1))
      refine (agree_self (pdIdx vpn)).bind ?_
      rintro i _ ⟨isIdx, rfl⟩
      obtain rfl := pdIdx_eq isIdx
      have table := equiv.current.tables (slotOf vpn).1
      have opens := reads (by simp [free])
      simp only [Kernel.setMapcount_current]
      generalize k.current.outerPtes (slotOf vpn).1 = outer at table opens ⊢
      generalize k'.current.outerPtes (slotOf vpn).1 = outer' at table ⊢
      cases table with
      | wild => exact .fault _
      | dir ptes =>
          exact .ok ⟨rfl, counted.setDirectory _ (ptes.update _ (.refl _))⟩
      | null =>
          have another : Kernel.Equiv
              { k.setMapcount pfnum (toUInt (k.mapcounts pfnum + 1)) with
                mallocs := k.mallocs + 1 }
              { k'.setMapcount pfnum (toUInt (k.mapcounts pfnum + 1)) with
                mallocs := k'.mallocs + 1 } :=
            ⟨counted.current, counted.processes, counted.mapcounts,
              congrArg (fun blocks => blocks + 1) equiv.mallocs⟩
          refine .ok ⟨rfl, another.setDirectory _ fun j => ?_⟩
          -- all PTEs of the new directory count but the one that is stored
          rw [Function.update_apply, Function.update_apply]
          split
          · exact .refl _
          · exact opens rfl j ‹_›

theorem Process.Equiv.entry {p p' : Process} (equiv : p.Equiv p')
    (slot : Slot) : (p.entry slot).Equiv (p'.entry slot) := by
  have table := equiv.tables slot.1
  unfold Process.entry
  generalize p.outerPtes slot.1 = outer at table ⊢
  generalize p'.outerPtes slot.1 = outer' at table ⊢
  cases table with
  | null => exact .refl zeroPte
  | wild => exact .refl zeroPte
  | dir ptes => exact ptes slot.2

theorem clearPte_agree (equiv : k.Equiv k')
    (valid : (k.pte vpn).valid = true) :
    Agree Kernel.Equiv (clearPte vpn k) (clearPte vpn k') := by
  unfold clearPte
  refine (agree_self (pdIdx vpn)).bind ?_
  rintro i _ ⟨isIdx, rfl⟩
  obtain rfl := pdIdx_eq isIdx
  have same := (equiv.current.entry (slotOf vpn)).same valid
  obtain ⟨isOuter, isOuter'⟩ | ⟨isOuter, isOuter'⟩ |
      ⟨pd, pd', isOuter, isOuter', ptes⟩ :=
    (equiv.current.tables (slotOf vpn).1).alike
  · rw [isOuter, isOuter']
    exact .fault _
  · rw [isOuter, isOuter']
    exact .fault _
  · rw [Process.entry_slotOf isOuter, Process.entry_slotOf isOuter'] at same
    simp only [isOuter, isOuter', Outer.deref, bind, Except.bind, ← same,
      ← equiv.mapcounts]
    cases frame (pd (pteIdx vpn)).pfn with
    | error fault => exact .fault fault
    | ok pfnum =>
        exact .ok ((equiv.setMapcount pfnum _).setDirectory _
          (ptes.update _ (.refl zeroPte)))

/-! ### Page faults -/

/-- What the page fault handler does about a write: it refuses, makes the PTE
writable, gives up a share of a frame, or reads past `mapcounts`. -/
inductive Answer where
  | refuses
  | opens
  | shares (pfnum : Fin nrPageframes)
  | strays
deriving DecidableEq, Repr

/-- The answer for a PTE of frame `pfnum` that was not set up for reading. -/
def countAnswer (mapcounts : Mapcounts) (pfnum : Fin nrPageframes) : Answer :=
  if asInt (mapcounts pfnum) = 1 then .opens
  else if 2 ≤ asInt (mapcounts pfnum) then .shares pfnum
  else .refuses

/-- The answer for a PTE. -/
def answer (mapcounts : Mapcounts) (pte : Pte) : Answer :=
  if pte.priv = accessRead then .refuses
  else
    match frame pte.pfn with
    | .ok pfnum => countAnswer mapcounts pfnum
    | .error _ => .strays

/-- The page fault handler gives the same answer to a write in both runs. -/
def WriteReads (vpn : Nat) (k k' : Kernel) : Prop :=
  ∀ pd pd', k.current.outerPtes (slotOf vpn).1 = .dir pd →
    k'.current.outerPtes (slotOf vpn).1 = .dir pd' →
      answer k.mapcounts (pd (pteIdx vpn)) =
        answer k'.mapcounts (pd' (pteIdx vpn))

section Answer

variable {m : Mapcounts} {pte : Pte} {pfnum : Fin nrPageframes}

theorem answer_of_frame (m : Mapcounts) (notRead : pte.priv ≠ accessRead)
    (isFrame : pte.pfn = pfnum.val) : answer m pte = countAnswer m pfnum := by
  unfold answer
  rw [if_neg notRead, frame_eq_ok.mpr isFrame]

/-- A PTE that is not refused for its flag names a frame or none at all. -/
theorem answer_cases (m : Mapcounts) (pte : Pte) :
    pte.priv = accessRead ∧ answer m pte = .refuses ∨
      pte.priv ≠ accessRead ∧ nrPageframes ≤ pte.pfn ∧
        answer m pte = .strays ∨
      ∃ pfnum : Fin nrPageframes, pte.priv ≠ accessRead ∧
        pte.pfn = pfnum.val ∧ answer m pte = countAnswer m pfnum := by
  by_cases isRead : pte.priv = accessRead
  · exact Or.inl ⟨isRead, if_pos isRead⟩
  · by_cases inside : pte.pfn < nrPageframes
    · exact Or.inr (Or.inr ⟨⟨pte.pfn, inside⟩, isRead, rfl,
        answer_of_frame m isRead rfl⟩)
    · refine Or.inr (Or.inl ⟨isRead, Nat.le_of_not_lt inside, ?_⟩)
      simp only [answer, if_neg isRead, frame, dif_neg inside]

/-- The count of a frame, read as an `int`, decides. -/
theorem countAnswer_cases (m : Mapcounts) (pfnum : Fin nrPageframes) :
    asInt (m pfnum) = 1 ∧ countAnswer m pfnum = .opens ∨
      2 ≤ asInt (m pfnum) ∧ countAnswer m pfnum = .shares pfnum ∨
      asInt (m pfnum) < 1 ∧ countAnswer m pfnum = .refuses := by
  unfold countAnswer
  by_cases one : asInt (m pfnum) = 1
  · exact Or.inl ⟨one, if_pos one⟩
  · rw [if_neg one]
    by_cases shared : 2 ≤ asInt (m pfnum)
    · exact Or.inr (Or.inl ⟨shared, if_pos shared⟩)
    · exact Or.inr (Or.inr ⟨by omega, if_neg shared⟩)

/-- A PTE that was made writable would be made writable again. -/
theorem answer_opened (opens : answer m pte = .opens) (rw : Nat) :
    answer m { pte with rw := rw, priv := accessWrite } = .opens := by
  rcases answer_cases m pte with ⟨_, eq⟩ | ⟨_, _, eq⟩ | ⟨pfnum, _, isFrame, eq⟩
  · simp [eq] at opens
  · simp [eq] at opens
  · rw [← opens, eq]
    exact answer_of_frame m (show accessWrite ≠ accessRead by decide) isFrame

theorem answer_shares (shares : answer m pte = .shares pfnum) :
    pte.priv ≠ accessRead ∧ pte.pfn = pfnum.val ∧ 2 ≤ asInt (m pfnum) := by
  rcases answer_cases m pte with
    ⟨_, eq⟩ | ⟨_, _, eq⟩ | ⟨other, notRead, isFrame, eq⟩
  · simp [eq] at shares
  · simp [eq] at shares
  · rw [eq] at shares
    rcases countAnswer_cases m other with ⟨_, eq⟩ | ⟨shared, eq⟩ | ⟨_, eq⟩
    · simp [eq] at shares
    · obtain rfl := Answer.shares.inj (eq.symm.trans shares)
      exact ⟨notRead, isFrame, shared⟩
    · simp [eq] at shares

end Answer

section Fault

variable {pd : Directory}

theorem handlePageFault_refuses (env : Env) (inside : vpn < nrPages)
    (isDir : k.current.outerPtes (slotOf vpn).1 = .dir pd)
    (refuses : answer k.mapcounts (pd (pteIdx vpn)) = .refuses) :
    handlePageFault env vpn accessWrite k = .ok (false, k) := by
  rcases answer_cases k.mapcounts (pd (pteIdx vpn)) with
    ⟨isRead, _⟩ | ⟨_, _, eq⟩ | ⟨pfnum, notRead, isFrame, eq⟩
  · exact handlePageFault_of_handled inside (.readOnly isDir isRead)
  · simp [eq] at refuses
  · rw [eq] at refuses
    rcases countAnswer_cases k.mapcounts pfnum with
      ⟨_, eq⟩ | ⟨_, eq⟩ | ⟨few, _⟩
    · simp [eq] at refuses
    · simp [eq] at refuses
    · exact handlePageFault_of_handled inside
        (.uncounted isDir notRead isFrame few)

theorem handlePageFault_opens (env : Env) (inside : vpn < nrPages)
    (isDir : k.current.outerPtes (slotOf vpn).1 = .dir pd)
    (opens : answer k.mapcounts (pd (pteIdx vpn)) = .opens) :
    handlePageFault env vpn accessWrite k = .ok (true, storePte k vpn pd
      { pd (pteIdx vpn) with rw := 0x03, priv := accessWrite }) := by
  rcases answer_cases k.mapcounts (pd (pteIdx vpn)) with
    ⟨_, eq⟩ | ⟨_, _, eq⟩ | ⟨pfnum, notRead, isFrame, eq⟩
  · simp [eq] at opens
  · simp [eq] at opens
  · rw [eq] at opens
    rcases countAnswer_cases k.mapcounts pfnum with
      ⟨one, _⟩ | ⟨_, eq⟩ | ⟨_, eq⟩
    · exact handlePageFault_of_handled inside
        (.alone isDir notRead isFrame one)
    · simp [eq] at opens
    · simp [eq] at opens

theorem handlePageFault_strays (env : Env) (inside : vpn < nrPages)
    (isDir : k.current.outerPtes (slotOf vpn).1 = .dir pd)
    (strays : answer k.mapcounts (pd (pteIdx vpn)) = .strays) :
    handlePageFault env vpn accessWrite k = .error .outOfRange := by
  rcases answer_cases k.mapcounts (pd (pteIdx vpn)) with
    ⟨_, eq⟩ | ⟨notRead, outside, _⟩ | ⟨pfnum, _, _, eq⟩
  · simp [eq] at strays
  · unfold handlePageFault
    simp only [pdIdx_of_lt inside, isDir, Outer.deref, bind, Except.bind,
      if_true, ne_eq, notRead, not_false_eq_true, frame,
      dif_neg (Nat.not_lt.mpr outside)]
  · rw [eq] at strays
    rcases countAnswer_cases k.mapcounts pfnum with
      ⟨_, eq⟩ | ⟨_, eq⟩ | ⟨_, eq⟩ <;> simp [eq] at strays

theorem storePte_equiv {base base' : Kernel} {pd' : Directory}
    {pte pte' : Pte} (equiv : base.Equiv base') (ptes : Directory.Equiv pd pd')
    (same : pte.Equiv pte') :
    (storePte base vpn pd pte).Equiv (storePte base' vpn pd' pte') :=
  equiv.setDirectory _ (ptes.update _ same)

theorem writeReads_storePte {base base' : Kernel} {pd' : Directory}
    {pte pte' : Pte}
    (same : answer base.mapcounts pte = answer base'.mapcounts pte') :
    WriteReads vpn (storePte base vpn pd pte) (storePte base' vpn pd' pte') := by
  intro stored stored' isDir isDir'
  obtain rfl := Outer.dir.inj ((storePte_dir base vpn pd pte).symm.trans isDir)
  obtain rfl :=
    Outer.dir.inj ((storePte_dir base' vpn pd' pte').symm.trans isDir')
  rw [Function.update_self, Function.update_self]
  exact same

/-- Another permission makes no difference to the equivalence. -/
theorem Pte.Equiv.setRw {pte pte' : Pte} (equiv : pte.Equiv pte') (rw : Nat) :
    Pte.Equiv { pte with rw := rw } { pte' with rw := rw } :=
  ⟨equiv.valid, fun valid => by rw [equiv.same valid]⟩

theorem Pte.Equiv.setFlags {pte pte' : Pte} (equiv : pte.Equiv pte')
    (rw priv : Nat) :
    Pte.Equiv { pte with rw := rw, priv := priv }
      { pte' with rw := rw, priv := priv } :=
  ⟨equiv.valid, fun valid => by rw [equiv.same valid]⟩

/-- What is known of the two runs after a write fault. -/
def Faulted (vpn : Nat) (a b : Bool × Kernel) : Prop :=
  (a.1 = b.1 ∧ WriteReads vpn a.2 b.2) ∧ a.2.Equiv b.2

/-- Where the handler gives up the same share, the runs go on alike. -/
theorem handlePageFault_shares {pd' : Directory} {pfnum : Fin nrPageframes}
    (env env' : Env) (inside : vpn < nrPages) (equiv : k.Equiv k')
    (isDir : k.current.outerPtes (slotOf vpn).1 = .dir pd)
    (isDir' : k'.current.outerPtes (slotOf vpn).1 = .dir pd')
    (ptes : Directory.Equiv pd pd')
    (shares : answer k.mapcounts (pd (pteIdx vpn)) = .shares pfnum)
    (shares' : answer k'.mapcounts (pd' (pteIdx vpn)) = .shares pfnum) :
    Agree (Faulted vpn) (handlePageFault env vpn accessWrite k)
      (handlePageFault env' vpn accessWrite k') := by
  obtain ⟨notRead, isFrame, shared⟩ := answer_shares shares
  obtain ⟨notRead', isFrame', shared'⟩ := answer_shares shares'
  have dropped : (dropShare k pfnum).Equiv (dropShare k' pfnum) := by
    unfold dropShare
    rw [← equiv.mapcounts]
    exact equiv.setMapcount pfnum _
  cases free : freeFrame (dropShare k pfnum) with
  | none =>
      rw [handlePageFault_of_handled inside
          (.exhausted isDir notRead isFrame shared free),
        handlePageFault_of_handled inside (.exhausted isDir' notRead' isFrame'
          shared' (dropped.freeFrame ▸ free))]
      refine .ok ⟨⟨rfl, writeReads_storePte ?_⟩,
        storePte_equiv dropped ptes ((ptes (pteIdx vpn)).setRw 0x03)⟩
      rw [← dropped.mapcounts]
      exact (answer_of_frame _ notRead isFrame).trans
        (answer_of_frame _ notRead' isFrame').symm
  | some new =>
      rw [handlePageFault_of_handled inside
          (.copied isDir notRead isFrame shared free),
        handlePageFault_of_handled inside (.copied isDir' notRead' isFrame'
          shared' (dropped.freeFrame ▸ free))]
      have taken := dropped.setMapcount new 1
      exact .ok ⟨⟨rfl, writeReads_storePte (by rw [taken.mapcounts])⟩,
        storePte_equiv taken ptes (.refl _)⟩

theorem handlePageFault_agree (env env' : Env) (equiv : k.Equiv k')
    (reads : WriteReads vpn k k') :
    Agree (Faulted vpn) (handlePageFault env vpn accessWrite k)
      (handlePageFault env' vpn accessWrite k') := by
  by_cases inside : vpn < nrPages
  · obtain ⟨isOuter, isOuter'⟩ | ⟨isOuter, isOuter'⟩ |
        ⟨pd, pd', isOuter, isOuter', ptes⟩ :=
      (equiv.current.tables (slotOf vpn).1).alike
    · unfold handlePageFault
      simp only [pdIdx_of_lt inside, isOuter, isOuter', Outer.deref, bind,
        Except.bind, if_true]
      exact .fault _
    · unfold handlePageFault
      simp only [pdIdx_of_lt inside, isOuter, isOuter', Outer.deref, bind,
        Except.bind, if_true]
      exact .fault _
    · have same := reads pd pd' isOuter isOuter'
      cases isAnswer : answer k.mapcounts (pd (pteIdx vpn)) with
      | refuses =>
          rw [handlePageFault_refuses env inside isOuter isAnswer,
            handlePageFault_refuses env' inside isOuter' (same ▸ isAnswer)]
          exact .ok ⟨⟨rfl, reads⟩, equiv⟩
      | opens =>
          have isAnswer' := same ▸ isAnswer
          rw [handlePageFault_opens env inside isOuter isAnswer,
            handlePageFault_opens env' inside isOuter' isAnswer']
          refine .ok ⟨⟨rfl, writeReads_storePte ?_⟩,
            storePte_equiv equiv ptes ((ptes (pteIdx vpn)).setFlags _ _)⟩
          rw [answer_opened isAnswer, answer_opened isAnswer']
      | shares pfnum =>
          exact handlePageFault_shares env env' inside equiv isOuter isOuter'
            ptes isAnswer (same ▸ isAnswer)
      | strays =>
          rw [handlePageFault_strays env inside isOuter isAnswer,
            handlePageFault_strays env' inside isOuter' (same ▸ isAnswer)]
          exact .fault _
  · unfold handlePageFault
    rw [pdIdx_of_le (Nat.le_of_not_lt inside)]
    exact .fault _

end Fault

/-! ### Forks -/

section Fork

variable {m m' : Mapcounts} {pd pd' nxtpd nxtpd' : Directory}

/-- What is known of the inner loop of the fork in the two runs, with the passes
`todo` to come: the child has equivalent PTEs wherever none is still to be
copied. -/
def Copying (todo : List (Fin nrPtesPerPage))
    (a b : Mapcounts × Directory × Directory) : Prop :=
  a.1 = b.1 ∧ Directory.Equiv a.2.1 b.2.1 ∧
    ∀ j, (j ∈ todo ∧ (a.2.1 j).valid = true) ∨ (a.2.2 j).Equiv (b.2.2 j)

theorem forkPte_agree (j : Fin nrPtesPerPage)
    (rest : List (Fin nrPtesPerPage)) (a b : Mapcounts × Directory × Directory)
    (copying : Copying (j :: rest) a b) :
    Agree (Copying rest) (forkPte a j) (forkPte b j) := by
  obtain ⟨m, pd, nxtpd⟩ := a
  obtain ⟨m', pd', nxtpd'⟩ := b
  obtain ⟨rfl, ptes, copied⟩ := copying
  unfold forkPte
  by_cases valid : (pd j).valid = true
  · have same : pd j = pd' j := (ptes j).same valid
    simp only [← same, valid, if_true, bind, Except.bind]
    cases frame (pd j).pfn with
    | error fault => exact .fault fault
    | ok pfnum =>
        refine .ok ⟨rfl, ptes.update j (.refl _), fun i => ?_⟩
        simp only [Function.update_apply]
        split
        · exact Or.inr (.refl _)
        · rename_i other
          exact (copied i).imp_left fun ⟨member, isValid⟩ =>
            ⟨(List.mem_cons.mp member).resolve_left other, isValid⟩
  · have same : (pd j).valid = (pd' j).valid := (ptes j).valid
    simp only [← same, if_neg valid]
    refine .ok ⟨rfl, ptes, fun i => (copied i).imp_left ?_⟩
    rintro ⟨member, isValid⟩
    refine ⟨(List.mem_cons.mp member).resolve_left ?_, isValid⟩
    rintro rfl
    exact valid isValid

/-- What a fork leaves unwritten in the child is the same in both runs: the
entries of `outer_ptes` without a directory in the parent, in the block of the
child, and, in the blocks from number `mallocs` on, the PTEs that are not valid
in the parent. -/
def ForkReads (env env' : Env) (block : Nat)
    (outer : Fin nrPtesPerPage → Outer) :
    List (Fin nrPtesPerPage) → Nat → Prop
  | [], _ => True
  | i :: rest, mallocs =>
      match outer i with
      | .dir pd =>
          (∀ j, ¬ (pd j).valid = true →
            (env.directory mallocs j).Equiv (env'.directory mallocs j)) ∧
          ForkReads env env' block outer rest (mallocs + 1)
      | _ => (env.outerPtes block i).Equiv (env'.outerPtes block i) ∧
          ForkReads env env' block outer rest mallocs

theorem ForkReads.congr {block mallocs : Nat}
    {outer outer' : Fin nrPtesPerPage → Outer}
    {todo : List (Fin nrPtesPerPage)}
    (reads : ForkReads env env' block outer todo mallocs)
    (same : ∀ i ∈ todo, outer' i = outer i) :
    ForkReads env env' block outer' todo mallocs := by
  induction todo generalizing mallocs with
  | nil => trivial
  | cons i rest inductionHypothesis =>
      have later (blocks : Nat)
          (reads : ForkReads env env' block outer rest blocks) :
          ForkReads env env' block outer' rest blocks :=
        inductionHypothesis reads fun j member =>
          same j (List.mem_cons_of_mem i member)
      have here := same i List.mem_cons_self
      cases isOuter : outer i with
      | null =>
          simp only [ForkReads, isOuter, here] at reads ⊢
          exact ⟨reads.1, later _ reads.2⟩
      | wild =>
          simp only [ForkReads, isOuter, here] at reads ⊢
          exact ⟨reads.1, later _ reads.2⟩
      | dir pd =>
          simp only [ForkReads, isOuter, here] at reads ⊢
          exact ⟨reads.1, later _ reads.2⟩

/-- What is known of the outer loop of the fork in the two runs, with the passes
`todo` to come. -/
structure Forking (env env' : Env) (block : Nat)
    (todo : List (Fin nrPtesPerPage)) (a b : Kernel × Process) : Prop where
  nodup : todo.Nodup
  kernel : a.1.Equiv b.1
  pid : a.2.pid = b.2.pid
  reads : ForkReads env env' block a.1.current.outerPtes todo a.1.mallocs
  fresh : ∀ i ∈ todo, a.2.outerPtes i = env.outerPtes block i
  fresh' : ∀ i ∈ todo, b.2.outerPtes i = env'.outerPtes block i
  done : ∀ i, i ∉ todo → (a.2.outerPtes i).Equiv (b.2.outerPtes i)

theorem Forking.skip {block : Nat} {i : Fin nrPtesPerPage}
    {rest : List (Fin nrPtesPerPage)} {a b : Kernel × Process}
    (forking : Forking env env' block (i :: rest) a b)
    (isNull : a.1.current.outerPtes i = .null) :
    Forking env env' block rest a b := by
  have reads := forking.reads
  simp only [ForkReads, isNull] at reads
  refine ⟨forking.nodup.of_cons, forking.kernel, forking.pid, reads.2,
    fun j member => forking.fresh j (List.mem_cons_of_mem i member),
    fun j member => forking.fresh' j (List.mem_cons_of_mem i member),
    fun j notRest => ?_⟩
  by_cases here : j = i
  · subst here
    rw [forking.fresh j List.mem_cons_self, forking.fresh' j List.mem_cons_self]
    exact reads.1
  · exact forking.done j fun member =>
      (List.mem_cons.mp member).elim here notRest

/-- One directory is copied in both runs. -/
theorem Forking.copy {block : Nat} {i : Fin nrPtesPerPage}
    {rest : List (Fin nrPtesPerPage)} {k k' : Kernel} {nxt nxt' : Process}
    (forking : Forking env env' block (i :: rest) (k, nxt) (k', nxt'))
    (isDir : k.current.outerPtes i = .dir pd)
    (isDir' : k'.current.outerPtes i = .dir pd')
    (ptes : Directory.Equiv pd pd') :
    Agree (Forking env env' block rest) (forkDirectory env (k, nxt) i)
      (forkDirectory env' (k', nxt') i) := by
  have equiv : k.Equiv k' := forking.kernel
  have reads := forking.reads
  simp only [ForkReads, isDir] at reads
  have notRest : i ∉ rest := (List.nodup_cons.mp forking.nodup).1
  have start : Copying (List.finRange nrPtesPerPage)
      (k.mapcounts, pd, env.directory k.mallocs)
      (k'.mapcounts, pd', env'.directory k'.mallocs) := by
    refine ⟨equiv.mapcounts, ptes, fun j => ?_⟩
    by_cases valid : (pd j).valid = true
    · exact Or.inl ⟨List.mem_finRange j, valid⟩
    · exact Or.inr (equiv.mallocs ▸ reads.1 j valid)
  unfold forkDirectory
  simp only [isDir, isDir']
  refine (agree_foldlM forkPte_agree _ start).bind ?_
  rintro ⟨m, pd₁, nxtpd⟩ ⟨_, pd₁', nxtpd'⟩ ⟨rfl, ptes₁, copied⟩
  have counted : Kernel.Equiv
      { k with mapcounts := m, mallocs := k.mallocs + 1 }
      { k' with mapcounts := m, mallocs := k'.mallocs + 1 } :=
    ⟨equiv.current, equiv.processes, rfl,
      congrArg (fun blocks => blocks + 1) equiv.mallocs⟩
  have child : Directory.Equiv nxtpd nxtpd' := fun j =>
    (copied j).resolve_left fun ⟨member, _⟩ => List.not_mem_nil member
  have elsewhere {p : Process} {pd : Directory} {j : Fin nrPtesPerPage}
      (other : j ≠ i) : (p.setDirectory i pd).outerPtes j = p.outerPtes j :=
    Function.update_of_ne other _ _
  have later {j : Fin nrPtesPerPage} (member : j ∈ rest) : j ≠ i := by
    rintro rfl
    exact notRest member
  refine .ok ⟨forking.nodup.of_cons, counted.setDirectory i ptes₁, forking.pid,
    reads.2.congr fun j member => elsewhere (later member),
    fun j member => (elsewhere (later member)).trans
      (forking.fresh j (List.mem_cons_of_mem i member)),
    fun j member => (elsewhere (later member)).trans
      (forking.fresh' j (List.mem_cons_of_mem i member)), fun j notRest => ?_⟩
  by_cases here : j = i
  · subst here
    have stored {p : Process} {pd : Directory} :
        (p.setDirectory j pd).outerPtes j = .dir pd := Function.update_self ..
    rw [stored, stored]
    exact .dir child
  · rw [elsewhere here, elsewhere here]
    exact forking.done j fun member =>
      (List.mem_cons.mp member).elim here notRest

theorem forkDirectory_agree {block : Nat} (i : Fin nrPtesPerPage)
    (rest : List (Fin nrPtesPerPage)) (a b : Kernel × Process)
    (forking : Forking env env' block (i :: rest) a b) :
    Agree (Forking env env' block rest) (forkDirectory env a i)
      (forkDirectory env' b i) := by
  obtain ⟨k, nxt⟩ := a
  obtain ⟨k', nxt'⟩ := b
  have table : (k.current.outerPtes i).Equiv (k'.current.outerPtes i) :=
    forking.kernel.current.tables i
  obtain ⟨isOuter, isOuter'⟩ | ⟨isOuter, isOuter'⟩ |
      ⟨pd, pd', isOuter, isOuter', ptes⟩ := table.alike
  · rw [forkDirectory_of_null isOuter, forkDirectory_of_null isOuter']
    exact .ok (forking.skip isOuter)
  · unfold forkDirectory
    simp only [isOuter, isOuter']
    exact .fault _
  · exact forking.copy isOuter isOuter' ptes

theorem fork_agree (pid : Nat) (equiv : k.Equiv k')
    (reads : ForkReads env env' k.mallocs k.current.outerPtes
      (List.finRange nrPtesPerPage) (k.mallocs + 1)) :
    Agree (fun a b => a.1.Equiv b.1 ∧ a.2.Equiv b.2) (fork env pid k)
      (fork env' pid k') := by
  have start : Forking env env' k.mallocs (List.finRange nrPtesPerPage)
      ({ k with mallocs := k.mallocs + 1 },
        { pid := pid, outerPtes := env.outerPtes k.mallocs })
      ({ k' with mallocs := k'.mallocs + 1 },
        { pid := pid, outerPtes := env'.outerPtes k'.mallocs }) :=
    { nodup := List.nodup_finRange _
      kernel := ⟨equiv.current, equiv.processes, equiv.mapcounts,
        congrArg (fun blocks => blocks + 1) equiv.mallocs⟩
      pid := rfl
      reads := reads
      fresh := fun _ _ => rfl
      fresh' := fun _ _ => by rw [equiv.mallocs]
      done := fun i notAny => absurd (List.mem_finRange i) notAny }
  exact (agree_foldlM forkDirectory_agree _ start).mono fun _ _ forked =>
    ⟨forked.kernel, forked.pid, fun i => forked.done i List.not_mem_nil⟩

end Fork

/-! ### Switches -/

/-- The search for the process takes the memory behind the list head for a
process in both runs or in none, and a fork leaves nothing unwritten that
differs. -/
def SwitchReads (env env' : Env) (pid : Nat) (k k' : Kernel) : Prop :=
  (findProcess env pid k).isOk = (findProcess env' pid k').isOk ∧
    (findProcess env pid k = .ok none →
      ForkReads env env' k.mallocs k.current.outerPtes
        (List.finRange nrPtesPerPage) (k.mallocs + 1))

theorem Kernel.Equiv.samePid (pid : Nat) (p p' : Process)
    (equiv : p.Equiv p') : decide (p.pid = pid) = decide (p'.pid = pid) := by
  rw [equiv.pid]

theorem findProcess_agree {pid : Nat} (equiv : k.Equiv k')
    (alike : (findProcess env pid k).isOk = (findProcess env' pid k').isOk) :
    Agree (Option.Rel Process.Equiv) (findProcess env pid k)
      (findProcess env' pid k') := by
  have search := find_related (Kernel.Equiv.samePid pid) equiv.processes
  unfold findProcess at alike ⊢
  generalize k.processes.find? (fun p => p.pid = pid) = found
    at search alike ⊢
  generalize k'.processes.find? (fun p => p.pid = pid) = found'
    at search alike ⊢
  cases search with
  | some same => exact .ok (.some same)
  | none =>
      simp only at alike ⊢
      by_cases mistaken : k.processes ≠ [] ∧ env.headPid k = pid
      · rw [if_pos mistaken] at alike ⊢
        split at alike
        · rw [if_pos ‹_›]
          exact .fault _
        · simp [Except.isOk, Except.toBool] at alike
      · rw [if_neg mistaken] at alike ⊢
        split at alike
        · simp [Except.isOk, Except.toBool] at alike
        · rw [if_neg ‹_›]
          exact .ok .none

theorem changeCurrent_equiv {nxt nxt' : Process}
    {processes processes' : List Process} (equiv : k.Equiv k')
    (same : nxt.Equiv nxt')
    (others : List.Forall₂ Process.Equiv processes processes') :
    (changeCurrent nxt processes k).Equiv
      (changeCurrent nxt' processes' k') :=
  ⟨same, List.rel_append others (.cons equiv.current .nil), equiv.mapcounts,
    equiv.mallocs⟩

theorem switchKernel_agree {pid : Nat} (equiv : k.Equiv k')
    (reads : SwitchReads env env' pid k k') :
    Agree Kernel.Equiv (switchKernel env pid k) (switchKernel env' pid k') := by
  obtain ⟨alike, forks⟩ := reads
  have searched := findProcess_agree equiv alike
  unfold switchKernel
  generalize isFound : findProcess env pid k = found at searched forks ⊢
  generalize findProcess env' pid k' = found' at searched ⊢
  cases searched with
  | fault fault => exact .fault fault
  | ok result =>
      cases result with
      | some same =>
          exact .ok (changeCurrent_equiv equiv same
            (eraseP_related (Kernel.Equiv.samePid _) equiv.processes))
      | none =>
          refine (fork_agree pid equiv (forks rfl)).bind ?_
          rintro ⟨k₁, nxt⟩ ⟨k₁', nxt'⟩ ⟨equiv₁, same⟩
          exact .ok (changeCurrent_equiv equiv₁ same equiv₁.processes)

/-! ### Commands -/

section Commands

variable {s s' : System}

/-- The results of a part of a command in the two runs. -/
def SameResult {α : Type} (a b : α × System) : Prop :=
  a.1 = b.1 ∧ a.2.Equiv b.2

theorem accessLoop_read (env env' : Env) (vpn tries : Nat)
    (equiv : s.Equiv s') :
    Agree SameResult (accessLoop false env vpn accessRead tries s)
      (accessLoop false env' vpn accessRead tries s') := by
  cases tries with
  | zero => exact .ok ⟨rfl, equiv⟩
  | succ tries =>
      unfold accessLoop
      refine (translate_agree equiv accessRead vpn).bind ?_
      rintro ⟨translation, _⟩ ⟨_, _⟩ ⟨rfl, rfl, rfl⟩
      cases translation with
      | some found => exact .ok ⟨rfl, equiv⟩
      | none =>
          by_cases inside : vpn < nrPages
          · simp only [onKernel, handlePageFault_read inside]
            exact .ok ⟨rfl, equiv⟩
          · simp only [onKernel, handlePageFault,
              pdIdx_of_le (Nat.le_of_not_lt inside)]
            exact .fault _

theorem accessLoop_write (env env' : Env) (vpn tries : Nat)
    (equiv : s.Equiv s') (reads : WriteReads vpn s.kernel s'.kernel) :
    Agree SameResult (accessLoop false env vpn accessWrite tries s)
      (accessLoop false env' vpn accessWrite tries s') := by
  induction tries generalizing s s' with
  | zero => exact .ok ⟨rfl, equiv⟩
  | succ tries inductionHypothesis =>
      unfold accessLoop
      refine (translate_agree equiv accessWrite vpn).bind ?_
      rintro ⟨translation, _⟩ ⟨_, _⟩ ⟨rfl, rfl, rfl⟩
      cases translation with
      | some found => exact .ok ⟨rfl, equiv⟩
      | none =>
          refine (onKernel_agree equiv
            (handlePageFault_agree env env' equiv.kernel reads)).bind ?_
          rintro ⟨ret, s₁⟩ ⟨_, s₁'⟩ ⟨⟨⟨rfl, reads₁⟩, equiv₁⟩, tlb⟩
          cases ret with
          | true => exact inductionHypothesis ⟨equiv₁, tlb⟩ reads₁
          | false => exact .ok ⟨rfl, equiv₁, tlb⟩

theorem accessMemory_agree {rw : Nat} (equiv : s.Equiv s')
    (either : rw = accessRead ∨ rw = accessWrite)
    (reads : rw = accessWrite → WriteReads vpn s.kernel s'.kernel) :
    Agree SameResult (accessMemory false env vpn rw s)
      (accessMemory false env' vpn rw s') := by
  unfold accessMemory
  refine (agree_self _).bind fun _ _ _ => (agree_self _).bind fun _ _ _ => ?_
  rcases either with rfl | rfl
  · exact accessLoop_read env env' vpn 2 equiv
  · exact accessLoop_write env env' vpn 2 equiv (reads rfl)

theorem requestPage_agree (equiv : s.Equiv s')
    (reads : AllocReads env env' vpn s.kernel s'.kernel) :
    Agree (fun a b => a.1 = b.1 ∧ SameResult a.2 b.2)
      (requestPage false env vpn rw s) (requestPage false env' vpn rw s') := by
  unfold requestPage
  refine (agree_self _).bind fun _ _ _ => (agree_self _).bind fun _ _ _ => ?_
  refine (translate_agree equiv accessRead vpn).bind ?_
  rintro ⟨translation, _⟩ ⟨_, _⟩ ⟨rfl, rfl, rfl⟩
  cases translation with
  | some found => exact .ok ⟨rfl, rfl, equiv⟩
  | none =>
      refine (onKernel_agree equiv
        (allocPage_agree equiv.kernel rw reads)).bind ?_
      rintro ⟨pfn, s₁⟩ ⟨_, s₁'⟩ ⟨⟨rfl, equiv₁⟩, tlb⟩
      dsimp only
      split
      · exact .ok ⟨rfl, rfl, equiv₁, tlb⟩
      · exact .ok ⟨rfl, rfl, equiv₁, tlb⟩

theorem freePage_agree (equiv : s.Equiv s')
    (valid : (s.kernel.pte vpn).valid = true) :
    Agree System.Equiv (freePage vpn s) (freePage vpn s') := by
  unfold freePage
  refine (clearPte_agree equiv.kernel valid).bind fun k k' cleared => ?_
  rw [equiv.tlb]
  refine (agree_self _).bind ?_
  rintro tlb _ ⟨_, rfl⟩
  exact .ok ⟨cleared, rfl⟩

theorem releasePage_agree (equiv : s.Equiv s') :
    Agree SameResult (releasePage false vpn s) (releasePage false vpn s') := by
  have walked := equiv.kernel.current.walk accessRead vpn
  unfold releasePage
  cases isWalk : walk accessRead vpn s.kernel.current with
  | error fault =>
      rw [translate_off_error isWalk, translate_off_error (walked ▸ isWalk)]
      exact .fault fault
  | ok result =>
      rw [translate_off isWalk, translate_off (walked ▸ isWalk)]
      cases result with
      | none => exact .ok ⟨rfl, equiv⟩
      | some pte =>
          obtain ⟨_, rfl, allows⟩ := walk_some isWalk
          refine (freePage_agree equiv allows.1).bind fun s₁ s₁' equiv₁ => ?_
          exact .ok ⟨rfl, equiv₁⟩

end Commands

/-- What the command reads of fresh memory is the same in both runs, or makes no
difference to it. -/
def Unread (env env' : Env) : Command → System → System → Prop
  | .alloc vpn _, s, s' => AllocReads env env' vpn s.kernel s'.kernel
  | .write vpn, s, s' => WriteReads vpn s.kernel s'.kernel
  | .switch pid, s, s' => SwitchReads env env' pid s.kernel s'.kernel
  | _, _, _ => True

/-- A command does the same in equivalent states, as long as it reads nothing
that differs. -/
theorem execute_matches (c : Command) {s s' : System} (equiv : s.Equiv s')
    (reads : Unread env env' c s s') :
    Matches Eq System.Equiv (execute false env c s) (execute false env' c s') := by
  cases c with
  | alloc vpn rw =>
      refine (requestPage_agree equiv reads).bind_matches ?_
      rintro ⟨done, out, s₁⟩ ⟨_, _, s₁'⟩ ⟨rfl, rfl, equiv₁⟩
      cases done with
      | true => exact .again rfl equiv₁
      | false => exact .leave rfl equiv₁
  | free vpn =>
      refine (releasePage_agree equiv).bind_matches ?_
      rintro ⟨out, s₁⟩ ⟨_, s₁'⟩ ⟨rfl, equiv₁⟩
      exact .again rfl equiv₁
  | read vpn =>
      refine (accessMemory_agree equiv (Or.inl rfl)
        (fun isWrite => absurd isWrite (by decide))).bind_matches ?_
      rintro ⟨out, s₁⟩ ⟨_, s₁'⟩ ⟨rfl, equiv₁⟩
      exact .again rfl equiv₁
  | write vpn =>
      refine (accessMemory_agree equiv (Or.inr rfl)
        (fun _ => reads)).bind_matches ?_
      rintro ⟨out, s₁⟩ ⟨_, s₁'⟩ ⟨rfl, equiv₁⟩
      exact .again rfl equiv₁
  | switch pid =>
      have switched : Agree System.Equiv (switchProcess env pid s)
          (switchProcess env' pid s') := by
        refine (switchKernel_agree equiv.kernel reads).bind fun k k' moved => ?_
        rw [equiv.tlb]
        refine (agree_self _).bind ?_
        rintro tlb _ ⟨_, rfl⟩
        exact .ok ⟨moved, rfl⟩
      exact switched.bind_matches fun s₁ s₁' equiv₁ => .again rfl equiv₁

/-! ### Whole runs -/

/-- The mapped pages of a process: the PTEs that are valid. -/
def Process.validEntry (p : Process) (slot : Slot) : Option Pte :=
  if (p.entry slot).valid then some (p.entry slot) else none

/-- The same map counts, and the same processes with the same valid PTEs. -/
structure SameMappings (s s' : System) : Prop where
  mapcounts : s.kernel.mapcounts = s'.kernel.mapcounts
  pids : s.kernel.pids = s'.kernel.pids
  valid : s.kernel.all.map Process.validEntry =
    s'.kernel.all.map Process.validEntry

theorem Process.Equiv.validEntry {p p' : Process} (equiv : p.Equiv p') :
    p.validEntry = p'.validEntry := by
  funext slot
  have same := equiv.entry slot
  unfold Process.validEntry
  by_cases valid : (p.entry slot).valid = true
  · rw [← same.same valid]
  · have invalid := valid
    rw [same.valid] at invalid
    rw [if_neg valid, if_neg invalid]

theorem Kernel.Equiv.map {α : Type} (equiv : k.Equiv k') (f : Process → α)
    (same : ∀ p p', Process.Equiv p p' → f p = f p') :
    k.all.map f = k'.all.map f := by
  have all : List.Forall₂ Process.Equiv k.all k'.all :=
    .cons equiv.current equiv.processes
  generalize k.all = list at all ⊢
  generalize k'.all = list' at all ⊢
  induction all with
  | nil => rfl
  | cons first _ inductionHypothesis =>
      rw [List.map_cons, List.map_cons, same _ _ first, inductionHypothesis]

theorem System.Equiv.sameMappings {s s' : System} (equiv : s.Equiv s') :
    SameMappings s s' where
  mapcounts := equiv.kernel.mapcounts
  pids := equiv.kernel.map Process.pid fun _ _ same => same.pid
  valid := equiv.kernel.map Process.validEntry fun _ _ same => same.validEntry

/-- What a run prints, and its mapped pages and map counts after every command,
do not depend on what fresh memory holds, as long as no command reads anything
there that differs. -/
theorem uninitialised_unobserved (env env' : Env) (workload : List Command)
    (unread : AlongBoth (execute false env) (execute false env')
      (Unread env env') workload init init) (n : Nat) :
    Matches (List.Forall₂ Eq) SameMappings
      (runAll (execute false env) (workload.take n) init)
      (runAll (execute false env') (workload.take n) init) :=
  (runAll_matches_both (fun c _ _ equiv reads => execute_matches c equiv reads)
    ⟨initKernel_equiv, rfl⟩ (unread.take n)).mono
      fun _ _ equiv => equiv.sameMappings

/-- Fresh memory that differs from zero-filled one in the fields of invalid PTEs
only. -/
def dustyEnv : Env :=
  { zeroEnv with
    directory := fun _ _ => { valid := false, rw := 2, pfn := 99, priv := 7 } }

/-- A page is allocated, its neighbour is read, and it is freed. -/
def readNeighbour : List Command :=
  [.alloc 0 ['r', 'w'], .read 1, .free 0, .read 0]

/-- Nothing that the four commands read of fresh memory differs. -/
theorem uninitialised_unobserved_readNeighbour :
    Matches (List.Forall₂ Eq) SameMappings
      (runAll (execute false zeroEnv) (readNeighbour.take 4) init)
      (runAll (execute false dustyEnv) (readNeighbour.take 4) init) := by
  refine uninitialised_unobserved zeroEnv dustyEnv readNeighbour ⟨?_,
    fun _ _ _ _ _ _ => ⟨trivial, fun _ _ _ _ _ _ => ⟨trivial,
      fun _ _ _ _ _ _ => ⟨trivial, fun _ _ _ _ _ _ => trivial⟩⟩⟩⟩ 4
  exact fun _ _ _ _ => ⟨rfl, fun valid => nomatch valid⟩

/-- Fresh memory in which the second PTE of a directory was valid before. -/
def staleEnv : Env :=
  { zeroEnv with
    directory := fun _ j =>
      if j.val = 1 then { valid := true, rw := 0x03, pfn := 5, priv := 0x03 }
      else zeroPte }

/-- Page 1 was never allocated.  It is reported as such with zero-filled memory,
and translated to frame 5 with stale one. -/
theorem uninitialised_observed :
    (runAll (execute false zeroEnv) [.alloc 0 ['r', 'w'], .read 1]
        init).toOption.map Prod.fst = some [.allocated 0 0, .unable 1] ∧
      (runAll (execute false staleEnv) [.alloc 0 ['r', 'w'], .read 1]
        init).toOption.map Prod.fst =
          some [.allocated 0 0, .translated false 1 5] ∧
      ¬ Matches (List.Forall₂ Eq) SameMappings
        (runAll (execute false zeroEnv) [.alloc 0 ['r', 'w'], .read 1] init)
        (runAll (execute false staleEnv) [.alloc 0 ['r', 'w'], .read 1] init) := by
  have zero : (runAll (execute false zeroEnv) [.alloc 0 ['r', 'w'], .read 1]
      init).toOption.map Prod.fst = some [.allocated 0 0, .unable 1] := by
    decide +kernel
  have stale : (runAll (execute false staleEnv) [.alloc 0 ['r', 'w'], .read 1]
      init).toOption.map Prod.fst =
        some [.allocated 0 0, .translated false 1 5] := by
    decide +kernel
  refine ⟨zero, stale, fun matched => ?_⟩
  have printed := matched.printed_eq
  rw [zero, stale] at printed
  simp at printed

end OsPAs.Vm
