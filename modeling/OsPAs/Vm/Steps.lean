/-
Module: OsPAs.Vm.Steps
Purpose: What one command does to the page tables and the map counts when the
  TLB is off: stored PTEs, served page faults and write accesses.
Trusted boundary: none
Main exports: Edits, Tame, Served, Handled.served, Written,
  accessMemory_of_written, written_of_accessMemory
-/
import OsPAs.Vm.Edits

namespace OsPAs.Vm

open Lib

variable {env : Env} {k k' : Kernel} {vpn rw : Nat} {pte : Pte}

/-! ### Stored PTEs -/

/-- `k'` differs from `k` in the PTE of one page, and perhaps in the map
counts. -/
structure Edits (k k' : Kernel) (vpn : Nat) (pte : Pte) : Prop where
  entry : k'.current.entry =
    Function.update k.current.entry (slotOf vpn) pte
  processes : k'.processes = k.processes
  pid : k'.current.pid = k.current.pid
  wild : ∀ i, k'.current.outerPtes i = .wild → k.current.outerPtes i = .wild

theorem agrees_of_dir {p : Process} {i : Fin nrPtesPerPage} {pd : Directory}
    (isDir : p.outerPtes i = .dir pd) : Agrees p i pd :=
  fun j => (Process.entry_of_dir isDir j).symm

/-- With zero-filled blocks the directory that `alloc_page` stores into agrees
with the entries, whether it is new or not. -/
theorem Opened.agrees {i : Fin nrPtesPerPage} {pd : Directory} {mallocs : Nat}
    (zero : env.ZeroFilled) (opened : Opened env k i pd mallocs) :
    Agrees k.current i pd := by
  cases opened with
  | existing isDir => exact agrees_of_dir isDir
  | fresh isNull =>
      intro j
      rw [zero.directory]
      simp only [Process.entry, isNull]

theorem edits_storePte (base : Kernel) {pd : Directory}
    (agrees : Agrees k.current (slotOf vpn).1 pd)
    (current : base.current = k.current)
    (processes : base.processes = k.processes) (pte : Pte) :
    Edits k (storePte base vpn pd pte) vpn pte where
  entry := by
    change (base.current.setDirectory _ _).entry = _
    rw [current]
    exact entry_setDirectory agrees _ pte
  processes := processes
  pid := by
    change base.current.pid = _
    rw [current]
  wild := fun i isWild => by
    change Function.update base.current.outerPtes _ _ i = _ at isWild
    by_cases same : i = (slotOf vpn).1
    · subst same
      rw [Function.update_self] at isWild
      simp at isWild
    · rwa [Function.update_of_ne same, current] at isWild

theorem takeFrame_edits {pfnum : Fin nrPageframes} {pd : Directory}
    {mallocs : Nat} (agrees : Agrees k.current (slotOf vpn).1 pd) :
    Edits k (takeFrame k vpn rw pfnum pd mallocs) vpn
      { valid := true, rw := rw, pfn := pfnum, priv := rw } := by
  unfold takeFrame
  exact edits_storePte { k.setMapcount pfnum 1 with mallocs := mallocs } agrees
    rfl rfl _

theorem Edits.entry_here (edits : Edits k k' vpn pte) :
    k'.current.entry (slotOf vpn) = pte := by
  rw [edits.entry, Function.update_self]

theorem Edits.entry_of_ne (edits : Edits k k' vpn pte) {slot : Slot}
    (other : slot ≠ slotOf vpn) :
    k'.current.entry slot = k.current.entry slot := by
  rw [edits.entry, Function.update_of_ne other]

/-! ### Tame kernels -/

/-- No entry of `outer_ptes` is wild, every valid PTE names a page frame, and
every map count is an `unsigned int`. -/
structure Tame (k : Kernel) : Prop where
  owned : ∀ p ∈ k.all, ∀ i, p.outerPtes i ≠ .wild
  inside : ∀ p ∈ k.all, ∀ slot, (p.entry slot).valid = true →
    (p.entry slot).pfn < nrPageframes
  small : ∀ x, k.mapcounts x < 2 ^ 32

theorem Kernel.current_mem_all (k : Kernel) : k.current ∈ k.all :=
  List.mem_cons_self

theorem Tame.edits (tame : Tame k) (edits : Edits k k' vpn pte)
    (inside : pte.valid = true → pte.pfn < nrPageframes)
    (small : ∀ x, k'.mapcounts x < 2 ^ 32) : Tame k' where
  owned := fun p member i => by
    rcases List.mem_cons.mp member with rfl | other
    · exact fun isWild =>
        tame.owned k.current k.current_mem_all i (edits.wild i isWild)
    · rw [edits.processes] at other
      exact tame.owned p (List.mem_cons_of_mem _ other) i
  inside := fun p member slot valid => by
    rcases List.mem_cons.mp member with rfl | other
    · by_cases same : slot = slotOf vpn
      · subst same
        rw [edits.entry_here] at valid ⊢
        exact inside valid
      · rw [edits.entry_of_ne same] at valid ⊢
        exact tame.inside _ k.current_mem_all slot valid
    · rw [edits.processes] at other
      exact tame.inside p (List.mem_cons_of_mem _ other) slot valid
  small := small

/-- Assigning to map counts keeps them `unsigned int`s. -/
theorem small_update {mapcounts : Mapcounts} {pfnum : Fin nrPageframes}
    {count : Nat} (small : ∀ x, mapcounts x < 2 ^ 32) (bound : count < 2 ^ 32)
    (x : Fin nrPageframes) :
    Function.update mapcounts pfnum count x < 2 ^ 32 := by
  rw [Function.update_apply]
  split
  · exact bound
  · exact small x

theorem subUInt_one_lt {count : Nat} (small : count < 2 ^ 32) :
    subUInt count 1 < 2 ^ 32 := by
  unfold subUInt
  split
  · omega
  · omega

theorem Tame.walk (tame : Tame k) (inside : vpn < nrPages) (rw : Nat) :
    OsPAs.Vm.walk rw vpn k.current =
      .ok (if (k.current.entry (slotOf vpn)).Allows rw
        then some (k.current.entry (slotOf vpn)) else none) :=
  walk_of_lt rw inside (tame.owned _ k.current_mem_all _)

/-! ### Served page faults -/

/-- The cases of `Handled` for the entries and the map counts. -/
inductive Served (k : Kernel) (vpn : Nat) : Bool → Kernel → Prop where
  | readOnly (isRead : (k.current.entry (slotOf vpn)).priv = accessRead) :
      Served k vpn false k
  | uncounted {pfnum : Fin nrPageframes}
      (notRead : (k.current.entry (slotOf vpn)).priv ≠ accessRead)
      (isFrame : (k.current.entry (slotOf vpn)).pfn = pfnum.val)
      (few : k.mapcounts pfnum = 0 ∨ 2 ^ 31 ≤ k.mapcounts pfnum) :
      Served k vpn false k
  | alone {pfnum : Fin nrPageframes} {k' : Kernel}
      (notRead : (k.current.entry (slotOf vpn)).priv ≠ accessRead)
      (isFrame : (k.current.entry (slotOf vpn)).pfn = pfnum.val)
      (one : k.mapcounts pfnum = 1)
      (edits : Edits k k' vpn { k.current.entry (slotOf vpn) with
        rw := 0x03, priv := accessWrite })
      (counts : k'.mapcounts = k.mapcounts) : Served k vpn true k'
  | copied {pfnum new : Fin nrPageframes} {k' : Kernel}
      (notRead : (k.current.entry (slotOf vpn)).priv ≠ accessRead)
      (isFrame : (k.current.entry (slotOf vpn)).pfn = pfnum.val)
      (shared : 2 ≤ k.mapcounts pfnum) (few : k.mapcounts pfnum < 2 ^ 31)
      (free : k.mapcounts new = 0)
      (edits : Edits k k' vpn
        { valid := true, rw := 0x03, pfn := new, priv := accessWrite })
      (counts : k'.mapcounts = Function.update
        (Function.update k.mapcounts pfnum (k.mapcounts pfnum - 1)) new 1) :
      Served k vpn true k'
  | exhausted {pfnum : Fin nrPageframes} {k' : Kernel}
      (notRead : (k.current.entry (slotOf vpn)).priv ≠ accessRead)
      (isFrame : (k.current.entry (slotOf vpn)).pfn = pfnum.val)
      (shared : 2 ≤ k.mapcounts pfnum) (few : k.mapcounts pfnum < 2 ^ 31)
      (full : ∀ x, k.mapcounts x ≠ 0)
      (edits : Edits k k' vpn
        { k.current.entry (slotOf vpn) with rw := 0x03 })
      (counts : k'.mapcounts =
        Function.update k.mapcounts pfnum (k.mapcounts pfnum - 1)) :
      Served k vpn true k'

/-- A frame with several mappings is not free after one is dropped. -/
theorem dropShare_mapcounts {pfnum : Fin nrPageframes}
    (shared : 2 ≤ k.mapcounts pfnum) :
    (dropShare k pfnum).mapcounts =
      Function.update k.mapcounts pfnum (k.mapcounts pfnum - 1) := by
  unfold dropShare
  rw [subUInt_of_le (by omega)]
  rfl

theorem dropShare_eq_zero {pfnum x : Fin nrPageframes}
    (shared : 2 ≤ k.mapcounts pfnum) :
    (dropShare k pfnum).mapcounts x = 0 ↔ k.mapcounts x = 0 := by
  rw [dropShare_mapcounts shared, Function.update_apply]
  split
  · rename_i same
    subst same
    omega
  · rfl

theorem Handled.served {ret : Bool} (tame : Tame k)
    (handled : Handled k vpn ret k') : Served k vpn ret k' := by
  cases handled with
  | readOnly isDir isRead => exact .readOnly (by rwa [Process.entry_slotOf isDir])
  | @uncounted pd pfnum isDir notRead isFrame few =>
      have small := tame.small pfnum
      refine .uncounted (by rwa [Process.entry_slotOf isDir])
        (by rwa [Process.entry_slotOf isDir]) ?_
      unfold asInt at few
      split at few
      · omega
      · omega
  | @alone pd pfnum isDir notRead isFrame one =>
      refine .alone (by rwa [Process.entry_slotOf isDir])
        (by rwa [Process.entry_slotOf isDir])
        ((asInt_eq_one (tame.small pfnum)).mp one) ?_ rfl
      rw [Process.entry_slotOf isDir]
      exact edits_storePte k (agrees_of_dir isDir) rfl rfl _
  | @copied pd pfnum new isDir notRead isFrame shared free =>
      obtain ⟨two, few⟩ := (two_le_asInt (tame.small pfnum)).mp shared
      refine .copied (by rwa [Process.entry_slotOf isDir])
        (by rwa [Process.entry_slotOf isDir]) two few
        ((dropShare_eq_zero two).mp (freeFrame_some free))
        (edits_storePte ((dropShare k pfnum).setMapcount new 1)
          (agrees_of_dir isDir) rfl rfl _) ?_
      change Function.update (dropShare k pfnum).mapcounts new 1 = _
      rw [dropShare_mapcounts two]
  | @exhausted pd pfnum isDir notRead isFrame shared full =>
      obtain ⟨two, few⟩ := (two_le_asInt (tame.small pfnum)).mp shared
      refine .exhausted (by rwa [Process.entry_slotOf isDir])
        (by rwa [Process.entry_slotOf isDir]) two few
        (fun x => (dropShare_eq_zero two).not.mp (freeFrame_none.mp full x)) ?_
        (dropShare_mapcounts two)
      rw [Process.entry_slotOf isDir]
      exact edits_storePte (dropShare k pfnum) (agrees_of_dir isDir) rfl rfl _

/-- A write fault on a page with a directory is dealt with in some way. -/
theorem exists_handled {pd : Directory}
    (isDir : k.current.outerPtes (slotOf vpn).1 = .dir pd)
    (inside : (pd (pteIdx vpn)).pfn < nrPageframes) :
    ∃ ret k', Handled k vpn ret k' := by
  by_cases isRead : (pd (pteIdx vpn)).priv = accessRead
  · exact ⟨_, _, .readOnly isDir isRead⟩
  · have isFrame : (pd (pteIdx vpn)).pfn =
        (⟨_, inside⟩ : Fin nrPageframes).val := rfl
    by_cases one : asInt (k.mapcounts ⟨_, inside⟩) = 1
    · exact ⟨_, _, .alone isDir isRead isFrame one⟩
    · by_cases shared : 2 ≤ asInt (k.mapcounts ⟨_, inside⟩)
      · cases free : freeFrame (dropShare k ⟨_, inside⟩) with
        | none => exact ⟨_, _, .exhausted isDir isRead isFrame shared free⟩
        | some new => exact ⟨_, _, .copied isDir isRead isFrame shared free⟩
      · exact ⟨_, _, .uncounted isDir isRead isFrame (by omega)⟩

theorem Served.tame {ret : Bool} (tame : Tame k)
    (served : Served k vpn ret k') : Tame k' := by
  have frameOf {pfnum : Fin nrPageframes}
      (isFrame : (k.current.entry (slotOf vpn)).pfn = pfnum.val) :
      (k.current.entry (slotOf vpn)).pfn < nrPageframes :=
    isFrame ▸ pfnum.isLt
  cases served with
  | readOnly => exact tame
  | uncounted => exact tame
  | alone _ isFrame _ edits counts =>
      exact tame.edits edits (fun _ => frameOf isFrame)
        (fun x => counts ▸ tame.small x)
  | @copied pfnum new _ _ isFrame _ _ _ edits counts =>
      refine tame.edits edits (fun _ => new.isLt) fun x => ?_
      have bound := tame.small pfnum
      rw [counts]
      exact small_update (small_update tame.small (by omega)) (by decide) x
  | @exhausted pfnum _ _ isFrame _ _ _ edits counts =>
      refine tame.edits edits (fun _ => frameOf isFrame) fun x => ?_
      have bound := tame.small pfnum
      rw [counts]
      exact small_update tame.small (by omega) x

/-! ### Writes -/

/-- The outcomes of a write access without the TLB: a translation at once, a
fault that is refused, a fault that is resolved, or one that the handler takes
for resolved while the PTE still does not allow the write. -/
inductive Written (k : Kernel) (vpn : Nat) : Outcome → Kernel → Prop where
  | granted (allows : (k.current.entry (slotOf vpn)).Allows accessWrite) :
      Written k vpn
        (.translated false vpn (k.current.entry (slotOf vpn)).pfn) k
  | refused {k' : Kernel}
      (denied : ¬ (k.current.entry (slotOf vpn)).Allows accessWrite)
      (handled : Handled k vpn false k') : Written k vpn (.unable vpn) k'
  | resolved {k' : Kernel}
      (denied : ¬ (k.current.entry (slotOf vpn)).Allows accessWrite)
      (handled : Handled k vpn true k')
      (allows : (k'.current.entry (slotOf vpn)).Allows accessWrite) :
      Written k vpn
        (.translated false vpn (k'.current.entry (slotOf vpn)).pfn) k'
  | lost {k₁ k' : Kernel} {ret : Bool}
      (denied : ¬ (k.current.entry (slotOf vpn)).Allows accessWrite)
      (handled : Handled k vpn true k₁)
      (denied' : ¬ (k₁.current.entry (slotOf vpn)).Allows accessWrite)
      (handled' : Handled k₁ vpn ret k') :
      Written k vpn (if ret then .silent vpn else .unable vpn) k'

/-- A page fault is dealt with only if the page has a directory. -/
theorem Handled.dirBefore {ret : Bool} (handled : Handled k vpn ret k') :
    ∃ pd, k.current.outerPtes (slotOf vpn).1 = .dir pd := by
  cases handled with
  | readOnly isDir => exact ⟨_, isDir⟩
  | alone isDir => exact ⟨_, isDir⟩
  | copied isDir => exact ⟨_, isDir⟩
  | exhausted isDir => exact ⟨_, isDir⟩
  | uncounted isDir => exact ⟨_, isDir⟩

/-- After a page fault that was taken for resolved the page has a directory. -/
theorem Handled.dir (handled : Handled k vpn true k') :
    ∃ pd, k'.current.outerPtes (slotOf vpn).1 = .dir pd := by
  cases handled with
  | alone => exact ⟨_, storePte_dir ..⟩
  | copied => exact ⟨_, storePte_dir ..⟩
  | exhausted => exact ⟨_, storePte_dir ..⟩

section Written

variable {s : System} {outcome : Outcome} {s' : System}

/-- A write access that is translated at once. -/
theorem accessLoop_granted (tries : Nat) (inside : vpn < nrPages)
    (owned : s.kernel.current.outerPtes (slotOf vpn).1 ≠ .wild)
    (allows : (s.kernel.current.entry (slotOf vpn)).Allows accessWrite) :
    accessLoop false env vpn accessWrite (tries + 1) s =
      .ok (.translated false vpn (s.kernel.current.entry (slotOf vpn)).pfn,
        s) := by
  have walked := walk_of_lt accessWrite inside owned
  rw [if_pos allows] at walked
  simp [accessLoop, translate_off walked, bind, Except.bind, pure, Except.pure]

/-- A write access that faults, up to what the handler makes of it. -/
theorem accessLoop_fault (tries : Nat) (inside : vpn < nrPages)
    (owned : s.kernel.current.outerPtes (slotOf vpn).1 ≠ .wild)
    (denied : ¬ (s.kernel.current.entry (slotOf vpn)).Allows accessWrite) :
    accessLoop false env vpn accessWrite (tries + 1) s =
      match handlePageFault env vpn accessWrite s.kernel with
      | .error fault => .error fault
      | .ok (true, k) =>
          accessLoop false env vpn accessWrite tries { s with kernel := k }
      | .ok (false, k) => .ok (.unable vpn, { s with kernel := k }) := by
  have walked := walk_of_lt accessWrite inside owned
  rw [if_neg denied] at walked
  simp only [accessLoop, translate_off walked, onKernel, bind, Except.bind,
    pure, Except.pure, Option.map_none]
  cases handlePageFault env vpn accessWrite s.kernel with
  | error fault => rfl
  | ok result =>
      obtain ⟨ret, k⟩ := result
      cases ret <;> rfl

theorem cAssert_of_true {condition : Prop} [Decidable condition]
    (holds : condition) : cAssert condition = .ok () :=
  if_pos holds

/-- The assertion of `__access_memory` on the flag. -/
def Exclusive (rw : Nat) : Prop := (rw &&& accessRead) ^^^ (rw &&& accessWrite) ≠ 0

theorem exclusive_read : Exclusive accessRead := by
  unfold Exclusive
  decide

theorem exclusive_write : Exclusive accessWrite := by
  unfold Exclusive
  decide

theorem accessMemory_eq (t : Bool) (inside : vpn < nrPages)
    (exclusive : Exclusive rw) (s : System) :
    accessMemory t env vpn rw s = accessLoop t env vpn rw 2 s := by
  unfold Exclusive at exclusive
  unfold accessMemory
  rw [cAssert_of_true exclusive,
    cAssert_of_true (show vpn < nrPtesPerPage * nrPtesPerPage from inside)]
  rfl

theorem accessMemory_of_written (env : Env) {k' : Kernel} (tame : Tame s.kernel)
    (inside : vpn < nrPages) (written : Written s.kernel vpn outcome k') :
    accessMemory false env vpn accessWrite s =
      .ok (outcome, { s with kernel := k' }) := by
  rw [accessMemory_eq false inside exclusive_write]
  have owned := tame.owned _ s.kernel.current_mem_all (slotOf vpn).1
  have ownedAfter {k : Kernel} (handled : Handled s.kernel vpn true k) :
      k.current.outerPtes (slotOf vpn).1 ≠ .wild := by
    obtain ⟨pd, isDir⟩ := handled.dir
    rw [isDir]
    simp
  cases written with
  | granted allows => exact accessLoop_granted 1 inside owned allows
  | refused denied handled =>
      rw [accessLoop_fault 1 inside owned denied,
        handlePageFault_of_handled inside handled]
  | resolved denied handled allows =>
      rw [accessLoop_fault 1 inside owned denied,
        handlePageFault_of_handled inside handled]
      exact accessLoop_granted (s := { s with kernel := k' }) 0 inside
        (ownedAfter handled) allows
  | @lost k₁ _ ret denied handled denied' handled' =>
      rw [accessLoop_fault 1 inside owned denied,
        handlePageFault_of_handled inside handled]
      simp only
      rw [accessLoop_fault (s := { s with kernel := k₁ }) 0 inside
        (ownedAfter handled) denied', handlePageFault_of_handled inside handled']
      cases ret <;> rfl

/-- The write access does nothing but what `Written` lists. -/
theorem written_of_accessMemory (tame : Tame s.kernel) (inside : vpn < nrPages)
    (ran : accessMemory false env vpn accessWrite s = .ok (outcome, s')) :
    ∃ k', s' = { s with kernel := k' } ∧ Written s.kernel vpn outcome k' := by
  -- a case that is listed determines the result
  have listed {outcome' : Outcome} {k' : Kernel}
      (written : Written s.kernel vpn outcome' k') :
      ∃ k', s' = { s with kernel := k' } ∧ Written s.kernel vpn outcome k' := by
    rw [accessMemory_of_written env tame inside written] at ran
    obtain ⟨rfl, rfl⟩ := Prod.mk.inj (Except.ok.inj ran)
    exact ⟨k', rfl, written⟩
  have owned := tame.owned _ s.kernel.current_mem_all (slotOf vpn).1
  by_cases allows : (s.kernel.current.entry (slotOf vpn)).Allows accessWrite
  · exact listed (.granted allows)
  · have faulted := ran
    rw [accessMemory_eq false inside exclusive_write,
      accessLoop_fault 1 inside owned allows] at faulted
    cases first : handlePageFault env vpn accessWrite s.kernel with
    | error fault => simp [first] at faulted
    | ok result =>
        obtain ⟨ret, k₁⟩ := result
        have handled := handled_of_handlePageFault inside first
        cases ret with
        | false => exact listed (.refused allows handled)
        | true =>
            by_cases allows' : (k₁.current.entry (slotOf vpn)).Allows accessWrite
            · exact listed (.resolved allows handled allows')
            · obtain ⟨pd, isDir⟩ := handled.dir
              rw [first] at faulted
              simp only at faulted
              rw [accessLoop_fault (s := { s with kernel := k₁ }) 0 inside
                (by simp [isDir]) allows'] at faulted
              cases second : handlePageFault env vpn accessWrite k₁ with
              | error fault => simp [second] at faulted
              | ok result =>
                  obtain ⟨ret, k'⟩ := result
                  exact listed (.lost allows handled allows'
                    (handled_of_handlePageFault inside second))

end Written

end OsPAs.Vm
