/-
Module: OsPAs.Vm.Removal
Purpose: `free_page` with the TLB.  The search for the entry of the page ends
  only at the first slot, so a page can be freed exactly if its entry is there.
Trusted boundary: none
Main exports: FreeState, FreesCleanly, CanFree, removeTlb_filter_iff,
  freePage_clean_iff
-/
import OsPAs.Vm.TlbShape
import OsPAs.Vm.Transparency

namespace OsPAs.Vm

open Lib

variable {env : Env} {s s' : System} {tlb : List TlbEntry} {vpn : Nat}

/-- A state of a run with `-t` in which `free_page` can be called: one between
two commands, or the one in which `__free_page` calls it. -/
inductive FreeState (env : Env) (workload : List Command) (vpn : Nat) :
    System → Prop where
  | between {s : System}
      (reached : Reaches (execute true env) workload init s) :
      FreeState env workload vpn s
  | called {s₀ s : System} {pfn : Nat} {fromTlb : Bool}
      (reached : Reaches (execute true env) workload init s₀)
      (translated : translate true accessRead vpn s₀ =
        .ok (some (pfn, fromTlb), s)) :
      FreeState env workload vpn s

/-- `free_page` has removed the entries for the page and no others, dropped one
mapping of its frame, and cleared its PTE. -/
structure FreesCleanly (vpn : Nat) (s s' : System) : Prop where
  noEntry : ∀ entry ∈ s'.tlb, entry.valid = true → entry.vpn ≠ vpn
  others : s'.tlb.filter (·.valid) =
    (s.tlb.filter (·.valid)).filter fun entry => entry.vpn ≠ vpn
  dropped : ∃ pfnum : Fin nrPageframes, (s.kernel.pte vpn).pfn = pfnum.val ∧
    s'.kernel.mapcounts pfnum + 1 = s.kernel.mapcounts pfnum
  cleared : s'.kernel.pte vpn = zeroPte

/-- The only valid entry for the page, if any entry is valid, is the first one,
and the frame of the page is counted. -/
structure CanFree (vpn : Nat) (s : System) : Prop where
  onlyFirst : OnlyFirst vpn (cached s.tlb)
  counted : ∃ pfnum : Fin nrPageframes, (s.kernel.pte vpn).pfn = pfnum.val ∧
    1 ≤ s.kernel.mapcounts pfnum

theorem FreeState.intact {workload : List Command}
    (state : FreeState env workload vpn s) : Intact s.tlb := by
  cases state with
  | between reached => exact reached_intact reached
  | called reached translated =>
      have called := (translate_traces accessRead vpn _).result _ translated
      exact ensures_foldlM Intact (fun tlb call => intact_call call tlb) _
        (reached_intact reached) _ called

/-! ### The TLB -/

/-- Dropping the first of the entries drops those for the page exactly if it is
the only one for it. -/
theorem tail_eq_filter_iff {entry : TlbEntry} {rest : List TlbEntry}
    (isPage : entry.vpn = vpn) :
    rest = (entry :: rest).filter (fun entry => entry.vpn ≠ vpn) ↔
      ∀ other ∈ rest, other.vpn ≠ vpn := by
  rw [List.filter_cons_of_neg (by simpa using isPage), eq_comm,
    List.filter_eq_self]
  simp

/-- The removal ends, with the entries for the page gone and all others in
place, exactly if the first entry is the only one for it. -/
theorem removeTlb_filter_iff (intact : Intact tlb) :
    (∃ tlb', removeTlb vpn tlb = .ok tlb' ∧ tlb'.filter (·.valid) =
      (tlb.filter (·.valid)).filter fun entry => entry.vpn ≠ vpn) ↔
      OnlyFirst vpn (cached tlb) := by
  rw [intact.contiguous.filter_valid]
  constructor
  · rintro ⟨tlb', ran, others⟩
    have kept := (intact.remove vpn tlb' ran).contiguous
    obtain ⟨_, remaining, first⟩ := removeTlb_ok intact.space ran
    rw [kept.filter_valid, remaining] at others
    cases entries : cached tlb with
    | nil => trivial
    | cons entry rest =>
        rw [entries] at others first
        have isPage := first entry rfl
        exact ⟨isPage, (tail_eq_filter_iff isPage).mp others⟩
  · intro onlyFirst
    cases entries : cached tlb with
    | nil =>
        refine ⟨tlb, removeTlb_empty entries intact.space, ?_⟩
        rw [intact.contiguous.filter_valid, entries]
        rfl
    | cons entry rest =>
        rw [entries] at onlyFirst
        obtain ⟨isPage, only⟩ := onlyFirst
        obtain ⟨tlb', ran, _, remaining⟩ :=
          removeTlb_first entries isPage intact.space
        refine ⟨tlb', ran, ?_⟩
        rw [(intact.remove vpn tlb' ran).contiguous.filter_valid, remaining]
        exact (tail_eq_filter_iff isPage).mpr only

/-! ### The page -/

/-- A map count drops by one when it is decremented exactly if it was not
zero. -/
theorem subUInt_one_succ {count : Nat} :
    subUInt count 1 + 1 = count ↔ 1 ≤ count := by
  unfold subUInt
  split
  · omega
  · omega

theorem freePage_eq_ok : freePage vpn s = .ok s' ↔
    clearPte vpn s.kernel = .ok s'.kernel ∧ removeTlb vpn s.tlb = .ok s'.tlb := by
  unfold freePage
  cases clearPte vpn s.kernel with
  | error fault => simp [bind, Except.bind]
  | ok k =>
      cases removeTlb vpn s.tlb with
      | error fault => simp [bind, Except.bind]
      | ok tlb =>
          obtain ⟨k', tlb'⟩ := s'
          simp [bind, Except.bind, pure, Except.pure]

/-- In a state in which it can be called, `free_page` ends on a mapped page and
does what it should exactly if no valid entry other than the first one is for
the page, the first one is if there are any, and the map count of the frame of
the page is not zero. -/
theorem freePage_clean_iff (env : Env) (workload : List Command) (vpn : Nat)
    (s : System) (state : FreeState env workload vpn s)
    (inside : vpn < nrPages) (mapped : (s.kernel.pte vpn).valid = true) :
    (∃ s', freePage vpn s = .ok s' ∧ FreesCleanly vpn s s') ↔
      CanFree vpn s := by
  have intact := state.intact
  constructor
  · rintro ⟨s', ran, clean⟩
    obtain ⟨cleared, removed⟩ := freePage_eq_ok.mp ran
    obtain ⟨pfnum, isFrame, _, counts⟩ := ((clearPte_iff inside).mp cleared).edits
    refine ⟨(removeTlb_filter_iff intact).mp ⟨_, removed, clean.others⟩, pfnum,
      isFrame, ?_⟩
    obtain ⟨pfnum', isFrame', dropped⟩ := clean.dropped
    obtain rfl : pfnum' = pfnum := Fin.ext (isFrame'.symm.trans isFrame)
    rw [counts, Function.update_self] at dropped
    exact subUInt_one_succ.mp dropped
  · rintro ⟨onlyFirst, pfnum, isFrame, counted⟩
    obtain ⟨tlb, removed, others⟩ := (removeTlb_filter_iff intact).mpr onlyFirst
    obtain ⟨pd, isDir⟩ := Process.dir_of_valid mapped
    have isFrame' := isFrame
    rw [Kernel.pte_of_dir isDir] at isFrame'
    obtain ⟨k, clears⟩ : ∃ k, Cleared s.kernel vpn k :=
      ⟨_, .cleared isDir isFrame'⟩
    obtain ⟨pfnum', sameFrame, edits, counts⟩ := clears.edits
    obtain rfl : pfnum' = pfnum := Fin.ext (sameFrame.symm.trans isFrame)
    refine ⟨{ kernel := k, tlb := tlb },
      freePage_eq_ok.mpr ⟨(clearPte_iff inside).mpr clears, removed⟩, ?_⟩
    refine ⟨fun entry member isValid => ?_, others, ⟨pfnum', isFrame, ?_⟩,
      edits.entry_here⟩
    · have kept := List.mem_filter.mpr ⟨member, isValid⟩
      rw [others] at kept
      simpa using (List.mem_filter.mp kept).2
    · rw [counts, Function.update_self]
      exact subUInt_one_succ.mpr counted

/-- Two pages are read one after the other. -/
def readInOrder : List Command :=
  [.alloc 0 ['r', 'w'], .alloc 1 ['r', 'w'], .read 0, .read 1]

/-- The page that was read first can be freed. -/
theorem freePage_clean_readInOrder :
    ∃ s, FreeState zeroEnv readInOrder 0 s ∧
      (s.kernel.pte 0).valid = true ∧ CanFree 0 s ∧
      ((∃ s', freePage 0 s = .ok s' ∧ FreesCleanly 0 s s') ↔ CanFree 0 s) := by
  obtain ⟨s, reached, mapped, onlyFirst, isFrame, counted⟩ := exists_of_endsWith
    (execute true zeroEnv) readInOrder init
    (fun s => (s.kernel.pte 0).valid = true ∧ OnlyFirst 0 (cached s.tlb) ∧
      (s.kernel.pte 0).pfn = 0 ∧ 1 ≤ s.kernel.mapcounts ⟨0, by decide⟩)
    (by decide +kernel)
  exact ⟨s, .between reached, mapped, ⟨onlyFirst, ⟨0, by decide⟩, isFrame, counted⟩,
    freePage_clean_iff zeroEnv readInOrder 0 s (.between reached) (by decide)
      mapped⟩

/-- Freeing the page that was read second never ends. -/
theorem freePage_endless :
    ∃ s, FreeState zeroEnv readInOrder 1 s ∧
      (s.kernel.pte 1).valid = true ∧ freePage 1 s = .error .endless ∧
      ¬ ∃ s', freePage 1 s = .ok s' ∧ FreesCleanly 1 s s' := by
  obtain ⟨s, reached, mapped, cleared, first⟩ := exists_of_endsWith
    (execute true zeroEnv) readInOrder init
    (fun s => (s.kernel.pte 1).valid = true ∧
      (clearPte 1 s.kernel).toOption.isSome = true ∧
      (cached s.tlb).head?.map (·.vpn) = some 0) (by decide +kernel)
  have ended : freePage 1 s = .error .endless := by
    obtain ⟨entry, isFirst, isOther⟩ := Option.map_eq_some_iff.mp first
    obtain ⟨rest, entries⟩ := List.head?_eq_some_iff.mp isFirst
    have stuck : removeTlb 1 s.tlb = .error .endless :=
      removeTlb_endless entries (by rw [isOther]; decide)
    unfold freePage
    cases ran : clearPte 1 s.kernel with
    | error fault => simp [ran, Except.toOption] at cleared
    | ok k =>
        rw [stuck]
        rfl
  refine ⟨s, .between reached, mapped, ended, ?_⟩
  rintro ⟨s', ran, _⟩
  rw [ended] at ran
  simp at ran

end OsPAs.Vm
