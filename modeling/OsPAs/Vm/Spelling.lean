/-
Module: OsPAs.Vm.Spelling
Purpose: The command `access`.  With `r` it does what `read` does.  With `w` its
  flag asks for reading and writing, and the page fault handler serves only a
  flag that asks for writing alone: when does it do what `write` does?
Trusted boundary: none
Main exports: Request, perform, tlbFrame, Refuses, WriteAlike,
  access_spelling_iff, access_write_refused
-/
import OsPAs.Vm.Duplicates

namespace OsPAs.Vm

open Lib

variable {t : Bool} {env : Env} {k k' : Kernel} {s : System} {vpn rw rw' : Nat}

/-- A command of a workload, or `access` with its second and third token. -/
inductive Request where
  | command (c : Command)
  | access (vpn : Nat) (rw : List Char)
deriving DecidableEq, Repr

/-- The branch of `__do_simulation` for a request. -/
def perform (t : Bool) (env : Env) (request : Request) (s : System) :
    Except Fault (Outcome × Pass System) :=
  match request with
  | .command c => execute t env c s
  | .access vpn rw => do
      let (outcome, s) ← accessMemory t env vpn (makeRwflag rw) s
      return (outcome, .again s)

/-! ### The condition -/

/-- The frame of the first entry that answers the access.  Without `-t` the TLB
is not asked. -/
def tlbFrame (t : Bool) (vpn rw : Nat) (s : System) : Option Nat :=
  if t then
    ((cached s.tlb).find? fun entry => Answers vpn rw entry).map (·.pfn)
  else none

/-- The page fault handler refuses to serve a write: the page has a directory,
and it was allocated for reading, or the map count of its frame, read as an
`int`, is not positive. -/
def Refuses (k : Kernel) (vpn : Nat) : Prop :=
  (∃ pd, k.current.outerPtes (slotOf vpn).1 = .dir pd) ∧
    ((k.pte vpn).priv = accessRead ∨ ∃ pfnum : Fin nrPageframes,
      (k.pte vpn).pfn = pfnum.val ∧ asInt (k.mapcounts pfnum) < 1)

/-- If the TLB answers `write`, it answers `access` with the same frame, or the
PTE has this frame, is writable, and can be inserted.  Else the PTE is writable,
or the outer entry is wild, or the fault is refused. -/
def WriteAlike (t : Bool) (s : System) (vpn : Nat) : Prop :=
  match tlbFrame t vpn accessWrite s, tlbFrame t vpn (makeRwflag ['w']) s with
  | some pfn, some pfn' => pfn' = pfn
  | some pfn, none => (s.kernel.pte vpn).Allows accessWrite ∧
      (s.kernel.pte vpn).pfn = pfn ∧ HasRoom s vpn (s.kernel.pte vpn).rw
  | none, _ => (s.kernel.pte vpn).Allows accessWrite ∨
      s.kernel.current.outerPtes (slotOf vpn).1 = .wild ∨ Refuses s.kernel vpn

/-! ### Translations -/

/-- An array that is asked is intact. -/
abbrev Askable (t : Bool) (tlb : List TlbEntry) : Prop := t = true → Intact tlb

/-- A translation asks the TLB, and where it does not answer it walks. -/
theorem translate_eq (askable : Askable t s.tlb) :
    translate t rw vpn s =
      match tlbFrame t vpn rw s with
      | some pfn => .ok (some (pfn, true), s)
      | none => walk rw vpn s.kernel.current >>= fun walked =>
          match walked with
          | none => .ok (none, s)
          | some pte =>
              if t then do
                let tlb ← insertTlb vpn pte.rw pte.pfn s.tlb
                return (some (pte.pfn, false), { s with tlb := tlb })
              else .ok (some (pte.pfn, false), s) := by
  cases t with
  | false => rfl
  | true =>
      have found : lookupTlb vpn rw s.tlb = .ok (tlbFrame true vpn rw s) :=
        lookupTlb_eq (askable rfl).space
      unfold translate
      simp only [if_true, found]
      rfl

theorem translate_of_hit (askable : Askable t s.tlb) {pfn : Nat}
    (hit : tlbFrame t vpn rw s = some pfn) :
    translate t rw vpn s = .ok (some (pfn, true), s) := by
  rw [translate_eq askable, hit]

/-- A translation depends on its flag through the lookup and the walk. -/
theorem translate_congr (askable : Askable t s.tlb)
    (asked : tlbFrame t vpn rw s = tlbFrame t vpn rw' s)
    (walked : walk rw vpn s.kernel.current = walk rw' vpn s.kernel.current) :
    translate t rw vpn s = translate t rw' vpn s := by
  rw [translate_eq askable, translate_eq askable, asked, walked]

theorem translate_of_miss (askable : Askable t s.tlb)
    (missed : tlbFrame t vpn rw s = none)
    (walked : walk rw vpn s.kernel.current = .ok none) :
    translate t rw vpn s = .ok (none, s) := by
  rw [translate_eq askable, missed, walked]
  rfl

theorem translate_of_fault (askable : Askable t s.tlb)
    (missed : tlbFrame t vpn rw s = none) {fault : Fault}
    (walked : walk rw vpn s.kernel.current = .error fault) :
    translate t rw vpn s = .error fault := by
  rw [translate_eq askable, missed, walked]
  rfl

/-- A translation that finds nothing comes from a walk that finds nothing. -/
theorem walk_of_translate {s' : System}
    (translated : translate t rw vpn s = .ok (none, s')) :
    walk rw vpn s.kernel.current = .ok none ∧ s' = s := by
  cases t with
  | true => exact (translate_none translated).2
  | false =>
      cases walked : walk rw vpn s.kernel.current with
      | error fault => simp [translate_off_error walked] at translated
      | ok found =>
          cases found with
          | none =>
              rw [translate_off walked] at translated
              exact ⟨rfl, (Prod.mk.inj (Except.ok.inj translated)).2.symm⟩
          | some pte => simp [translate_off walked] at translated

theorem translate_of_found (askable : Askable true s.tlb) {pte : Pte}
    (missed : tlbFrame true vpn rw s = none)
    (walked : walk rw vpn s.kernel.current = .ok (some pte)) :
    translate true rw vpn s =
      (insertTlb vpn pte.rw pte.pfn s.tlb >>= fun tlb =>
        .ok (some (pte.pfn, false), { s with tlb := tlb })) := by
  rw [translate_eq askable, missed, walked]
  rfl

/-- What answers an access for more answers one for less, so what does not answer
the one for less does not answer the other. -/
theorem tlbFrame_none_of_le {less more : Nat} (le : less ≤ more)
    (missed : tlbFrame t vpn less s = none) :
    tlbFrame t vpn more s = none := by
  cases t with
  | false => rfl
  | true =>
      simp only [tlbFrame, if_true, Option.map_eq_none_iff,
        List.find?_eq_none, decide_eq_true_eq] at missed ⊢
      exact fun entry member answers =>
        missed entry member ⟨answers.1, le.trans answers.2⟩

/-! ### Accesses -/

/-- Two accesses print the same, up to where a translation comes from, and leave
the same page tables and map counts. -/
def SameAccess (a b : Outcome × System) : Prop :=
  SameOutcome a.1 b.1 ∧ a.2.kernel = b.2.kernel

theorem accessLoop_of_some (tries : Nat) {pfn : Nat} {fromTlb : Bool}
    {s' : System} (translated : translate t rw vpn s =
      .ok (some (pfn, fromTlb), s')) :
    accessLoop t env vpn rw (tries + 1) s =
      .ok (.translated fromTlb vpn pfn, s') := by
  rw [accessLoop, translated]
  rfl

theorem accessLoop_of_error (tries : Nat) {fault : Fault}
    (translated : translate t rw vpn s = .error fault) :
    accessLoop t env vpn rw (tries + 1) s = .error fault := by
  rw [accessLoop, translated]
  rfl

theorem accessLoop_of_none (tries : Nat)
    (translated : translate t rw vpn s = .ok (none, s)) :
    accessLoop t env vpn rw (tries + 1) s =
      match handlePageFault env vpn rw s.kernel with
      | .error fault => .error fault
      | .ok (true, k) => accessLoop t env vpn rw tries { s with kernel := k }
      | .ok (false, k) => .ok (.unable vpn, { s with kernel := k }) := by
  rw [accessLoop, translated]
  simp only [onKernel, bind, Except.bind, pure, Except.pure]
  cases handlePageFault env vpn rw s.kernel with
  | error fault => rfl
  | ok result =>
      obtain ⟨ret, k⟩ := result
      cases ret <;> rfl

/-- A fault that is refused changes nothing. -/
theorem Handled.refused (handled : Handled k vpn false k') :
    k' = k ∧ Refuses k vpn := by
  cases handled with
  | readOnly isDir isRead =>
      refine ⟨rfl, ⟨_, isDir⟩, Or.inl ?_⟩
      rwa [Kernel.pte_of_dir isDir]
  | uncounted isDir notRead isFrame few =>
      refine ⟨rfl, ⟨_, isDir⟩, Or.inr ⟨_, ?_, few⟩⟩
      rwa [Kernel.pte_of_dir isDir]

theorem Refuses.handled (refuses : Refuses k vpn) : Handled k vpn false k := by
  obtain ⟨⟨pd, isDir⟩, why⟩ := refuses
  rw [Kernel.pte_of_dir isDir] at why
  by_cases isRead : (pd (pteIdx vpn)).priv = accessRead
  · exact .readOnly isDir isRead
  · obtain ⟨pfnum, isFrame, few⟩ := why.resolve_left isRead
    exact .uncounted isDir isRead isFrame few

/-- A write that faults and is served is not denied in the second round. -/
theorem not_unable_of_served (inside : vpn < nrPages)
    (served : handlePageFault env vpn accessWrite s.kernel = .ok (true, k'))
    (s' : System) :
    accessLoop t env vpn accessWrite 1 { s with kernel := k' } ≠
      .ok (.unable vpn, s') := by
  have handled := handled_of_handlePageFault inside served
  cases translated : translate t accessWrite vpn { s with kernel := k' } with
  | error fault =>
      rw [accessLoop_of_error 0 translated]
      simp
  | ok result =>
      obtain ⟨found, s₁⟩ := result
      cases found with
      | some translation =>
          rw [accessLoop_of_some 0 translated]
          simp
      | none =>
          obtain ⟨walked, rfl⟩ := walk_of_translate translated
          have denied := (walk_none walked).2
          rw [accessLoop_of_none 0 translated]
          cases again : handlePageFault env vpn accessWrite k' with
          | error fault => simp
          | ok result =>
              obtain ⟨ret, k''⟩ := result
              cases ret with
              | true => simp [accessLoop]
              | false =>
                  have handled' := handled_of_handlePageFault inside again
                  exact (handled.not_refused_again denied handled').elim

/-- A write that no translation is found for is denied like an access if and
only if the fault is refused. -/
theorem denied_alike_iff (inside : vpn < nrPages)
    (translated : translate t accessWrite vpn s = .ok (none, s)) :
    Agree SameAccess (.ok (.unable vpn, s))
      (accessLoop t env vpn accessWrite 2 s) ↔ Refuses s.kernel vpn := by
  rw [accessLoop_of_none 1 translated]
  constructor
  · intro agree
    cases served : handlePageFault env vpn accessWrite s.kernel with
    | error fault =>
        rw [served] at agree
        cases agree
    | ok result =>
        obtain ⟨ret, k'⟩ := result
        cases ret with
        | false => exact (handled_of_handlePageFault inside served).refused.2
        | true =>
            rw [served] at agree
            simp only at agree
            cases ran : accessLoop t env vpn accessWrite 1
                { s with kernel := k' } with
            | error fault =>
                rw [ran] at agree
                cases agree
            | ok result =>
                obtain ⟨out, s'⟩ := result
                rw [ran] at agree
                obtain ⟨same, _⟩ : SameAccess _ _ := by
                  cases agree with
                  | ok results => exact results
                have isUnable : out = .unable vpn := by
                  cases out <;> simp_all [SameOutcome, Outcome.forget]
                subst isUnable
                exact (not_unable_of_served inside served s' ran).elim
  · intro refuses
    rw [handlePageFault_of_handled inside refuses.handled]
    exact .ok ⟨rfl, rfl⟩

theorem walk_write_flags (vpn : Nat) (p : Process) :
    walk (makeRwflag ['w']) vpn p = walk accessWrite vpn p :=
  rfl

/-- An access that no translation is found for is denied. -/
theorem accessLoop_both_of_none (inside : vpn < nrPages)
    (translated : translate t (makeRwflag ['w']) vpn s = .ok (none, s)) :
    accessLoop t env vpn (makeRwflag ['w']) 2 s = .ok (.unable vpn, s) := by
  rw [accessLoop_of_none 1 translated, handlePageFault_of_ne inside (by decide)]

theorem agree_translated {fromTlb fromTlb' : Bool} {pfn pfn' : Nat}
    {s' : System} (same : s.kernel = s'.kernel) :
    Agree SameAccess (.ok (.translated fromTlb vpn pfn, s) : Except Fault _)
      (.ok (.translated fromTlb' vpn pfn', s')) ↔ pfn = pfn' := by
  constructor
  · rintro (_ | ⟨outcomes, _⟩)
    exact (Outcome.translated.inj outcomes).2.2
  · rintro rfl
    exact .ok ⟨rfl, same⟩

/-- If the TLB answers neither, what differs is the page fault. -/
theorem alike_of_miss (askable : Askable t s.tlb) (inside : vpn < nrPages)
    (missed : tlbFrame t vpn accessWrite s = none) :
    Agree SameAccess (accessLoop t env vpn (makeRwflag ['w']) 2 s)
        (accessLoop t env vpn accessWrite 2 s) ↔
      (s.kernel.pte vpn).Allows accessWrite ∨
        s.kernel.current.outerPtes (slotOf vpn).1 = .wild ∨
        Refuses s.kernel vpn := by
  have missed' : tlbFrame t vpn (makeRwflag ['w']) s = none :=
    tlbFrame_none_of_le (by decide) missed
  have same : translate t (makeRwflag ['w']) vpn s =
      translate t accessWrite vpn s :=
    translate_congr askable (missed'.trans missed.symm) (walk_write_flags vpn _)
  -- a translation that does not fail in the walk is the same for both
  have found (answered : translate t accessWrite vpn s ≠ .ok (none, s)) :
      (s.kernel.pte vpn).Allows accessWrite ∨
        s.kernel.current.outerPtes (slotOf vpn).1 = .wild ∨
        Refuses s.kernel vpn := by
    by_contra neither
    rw [not_or, not_or] at neither
    have walked := walk_of_lt accessWrite inside neither.2.1
    rw [if_neg neither.1] at walked
    exact answered (translate_of_miss askable missed walked)
  cases translated : translate t accessWrite vpn s with
  | error fault =>
      rw [accessLoop_of_error 1 translated,
        accessLoop_of_error 1 (same.trans translated)]
      exact iff_of_true (.fault fault) (found (by simp [translated]))
  | ok result =>
      obtain ⟨translation, s'⟩ := result
      cases translation with
      | some translation =>
          obtain ⟨pfn, fromTlb⟩ := translation
          rw [accessLoop_of_some 1 translated,
            accessLoop_of_some 1 (same.trans translated)]
          exact iff_of_true (.ok ⟨rfl, rfl⟩) (found (by simp [translated]))
      | none =>
          obtain ⟨walked, rfl⟩ := walk_of_translate translated
          rw [accessLoop_both_of_none inside (same.trans translated),
            denied_alike_iff inside translated]
          have denied := (walk_none walked).2
          refine ⟨fun refuses => Or.inr (Or.inr refuses), fun either => ?_⟩
          rcases either with allows | wild | refuses
          · exact absurd allows denied
          · rw [walk_of_wild accessWrite inside wild] at walked
            simp at walked
          · exact refuses

/-- If the TLB answers the write only, the access has to find the frame in the
page table. -/
theorem alike_of_hit {pfn : Nat} (askable : Askable t s.tlb)
    (inside : vpn < nrPages) (hit : tlbFrame t vpn accessWrite s = some pfn)
    (missed : tlbFrame t vpn (makeRwflag ['w']) s = none) :
    Agree SameAccess (accessLoop t env vpn (makeRwflag ['w']) 2 s)
        (accessLoop t env vpn accessWrite 2 s) ↔
      (s.kernel.pte vpn).Allows accessWrite ∧ (s.kernel.pte vpn).pfn = pfn ∧
        HasRoom s vpn (s.kernel.pte vpn).rw := by
  obtain rfl : t = true := by
    by_contra off
    rw [Bool.not_eq_true] at off
    subst off
    simp [tlbFrame] at hit
  have intact := askable rfl
  rw [accessLoop_of_some 1 (translate_of_hit askable hit)]
  by_cases wild : s.kernel.current.outerPtes (slotOf vpn).1 = .wild
  · have walked := walk_of_wild (makeRwflag ['w']) inside wild
    rw [accessLoop_of_error 1 (translate_of_fault askable missed walked)]
    refine iff_of_false ?_ ?_
    · rintro ⟨⟩
    · rintro ⟨⟨valid, _⟩, _⟩
      simp [Kernel.pte, Process.entry, wild, zeroPte] at valid
  · have walked := walk_of_lt (makeRwflag ['w']) inside wild
    by_cases allows : (s.kernel.pte vpn).Allows accessWrite
    · rw [if_pos (show (s.kernel.pte vpn).Allows (makeRwflag ['w']) from allows)]
        at walked
      have fits : _ ↔ HasRoom s vpn (s.kernel.pte vpn).rw :=
        insertEntry_length_lt_iff intact (s.kernel.pte vpn).pfn
      rw [← intact.length] at fits
      have translated := translate_of_found askable missed walked
      by_cases room : HasRoom s vpn (s.kernel.pte vpn).rw
      · obtain ⟨tlb, ran, _⟩ := insertTlb_cached (fits.mpr room)
        rw [ran] at translated
        have kept : ({ s with tlb := tlb } : System).kernel = s.kernel := rfl
        rw [accessLoop_of_some 1 translated, agree_translated kept]
        exact ⟨fun same => ⟨allows, same, room⟩, fun both => both.2.1⟩
      · have full := insertTlb_full intact.space
          (Nat.le_of_not_lt (mt fits.mp room))
        rw [full] at translated
        rw [accessLoop_of_error 1 translated]
        refine iff_of_false ?_ fun both => room both.2.2
        rintro ⟨⟩
    · rw [if_neg (show ¬ (s.kernel.pte vpn).Allows (makeRwflag ['w']) from allows)]
        at walked
      rw [accessLoop_both_of_none inside
        (translate_of_miss askable missed walked)]
      refine iff_of_false ?_ fun both => allows both.1
      rintro (_ | ⟨outcomes, _⟩)
      cases outcomes

theorem accessLoop_alike_iff (askable : Askable t s.tlb)
    (inside : vpn < nrPages) :
    Agree SameAccess (accessLoop t env vpn (makeRwflag ['w']) 2 s)
        (accessLoop t env vpn accessWrite 2 s) ↔ WriteAlike t s vpn := by
  unfold WriteAlike
  cases hit : tlbFrame t vpn accessWrite s with
  | none => exact alike_of_miss askable inside hit
  | some pfn =>
      cases hit' : tlbFrame t vpn (makeRwflag ['w']) s with
      | none => exact alike_of_hit askable inside hit hit'
      | some pfn' =>
          rw [accessLoop_of_some 1 (translate_of_hit askable hit),
            accessLoop_of_some 1 (translate_of_hit askable hit'),
            agree_translated rfl]

/-! ### Runs -/

/-- Accesses that go on to the next request match if they agree. -/
theorem matches_access_iff (x y : Except Fault (Outcome × System)) :
    Matches SameOutcome (fun s s' => s.kernel = s'.kernel)
        (x >>= fun result => .ok (result.1, .again result.2))
        (y >>= fun result => .ok (result.1, .again result.2)) ↔
      Agree SameAccess x y := by
  constructor
  · intro matched
    cases x with
    | error fault =>
        cases y with
        | error fault' =>
            cases matched
            exact .fault fault
        | ok b => cases matched
    | ok a =>
        cases y with
        | error fault' => cases matched
        | ok b =>
            cases matched with
            | again prints states => exact .ok ⟨prints, states⟩
  · intro agree
    exact agree.bind_matches fun a b same => .again same.1 same.2

/-- A request keeps the array intact. -/
theorem perform_intact (request : Request) (intact : Intact s.tlb) :
    Ensures (fun result => Intact result.2.state.tlb)
      (perform true env request s) := by
  cases request with
  | command c => exact execute_keeps intact_call env c intact
  | access vpn rw =>
      have accessed : Ensures (fun result => Intact result.2.tlb)
          (accessMemory true env vpn (makeRwflag rw) s) := fun result ran =>
        runCalls_intact intact
          ((accessMemory_traces env (rwflag_exclusive rw) s).result result ran)
      exact accessed.bind fun result kept => ensures_ok kept

theorem reached_askable {workload : List Request}
    (reached : Reaches (perform t env) workload init s) : Askable t s.tlb := by
  rintro rfl
  exact reaches_invariant (fun s => Intact s.tlb)
    (fun request _ _ _ intact _ ran => perform_intact request intact _ ran)
    intact_init (along_true (perform true env) workload init) reached

/-- What a request prints, up to where a translation comes from, unless it
faults. -/
def said : Except Fault (Outcome × Pass System) → Option Outcome
  | .ok (out, _) => some out.forget
  | .error _ => none

theorem said_eq {related : System → System → Prop}
    {result result' : Except Fault (Outcome × Pass System)}
    (matched : Matches SameOutcome related result result') :
    said result = said result' := by
  cases matched with
  | fault fault => rfl
  | again prints _ => exact congrArg some prints
  | leave prints _ => exact congrArg some prints

/-- In every state reached, with and without `-t`, `access vpn r` does what
`read vpn` does, and `access vpn w` does what `write vpn` does if and only if
the TLB or the page table lets both through to the same frame, or both fault, or
the page fault handler refuses the write. -/
theorem access_spelling_iff (t : Bool) (env : Env) (workload : List Request)
    (s : System) (reached : Reaches (perform t env) workload init s) (vpn : Nat)
    (inside : vpn < nrPages) :
    perform t env (.access vpn ['r']) s = perform t env (.command (.read vpn)) s ∧
      (Matches SameOutcome (fun s s' => s.kernel = s'.kernel)
          (perform t env (.access vpn ['w']) s)
          (perform t env (.command (.write vpn)) s) ↔
        WriteAlike t s vpn) := by
  refine ⟨rfl, ?_⟩
  rw [← accessLoop_alike_iff (reached_askable reached) inside]
  have access : perform t env (.access vpn ['w']) s =
      accessLoop t env vpn (makeRwflag ['w']) 2 s >>= fun result =>
        .ok (result.1, .again result.2) := by
    simp only [perform, accessMemory_eq t inside (rwflag_exclusive ['w'])]
    rfl
  have write : perform t env (.command (.write vpn)) s =
      accessLoop t env vpn accessWrite 2 s >>= fun result =>
        .ok (result.1, .again result.2) := by
    simp only [perform, execute, accessMemory_eq t inside exclusive_write]
    rfl
  rw [access, write]
  exact matches_access_iff _ _

/-- A process allocates a page and forks a child. -/
def allocThenFork : List Request :=
  [.command (.alloc 0 ['r', 'w']), .command (.switch 1)]

theorem access_spelling_iff_allocThenFork :
    ∃ s, Reaches (perform true zeroEnv) allocThenFork init s ∧
      s.kernel.current.pid = 1 ∧
      perform true zeroEnv (.access 0 ['r']) s =
        perform true zeroEnv (.command (.read 0)) s ∧
      (Matches SameOutcome (fun s s' => s.kernel = s'.kernel)
          (perform true zeroEnv (.access 0 ['w']) s)
          (perform true zeroEnv (.command (.write 0)) s) ↔
        WriteAlike true s 0) := by
  obtain ⟨s, reached, child⟩ := exists_of_endsWith (perform true zeroEnv)
    allocThenFork init (fun s => s.kernel.current.pid = 1) (by decide +kernel)
  exact ⟨s, reached, child,
    access_spelling_iff true zeroEnv allocThenFork s reached 0 (by decide)⟩

/-- The child is denied the access to the page that it shares, and granted the
write to a frame of its own. -/
theorem access_write_refused :
    ∃ s, Reaches (perform false zeroEnv) allocThenFork init s ∧
      said (perform false zeroEnv (.access 0 ['w']) s) = some (.unable 0) ∧
      said (perform false zeroEnv (.command (.write 0)) s) =
        some (.translated false 0 1) ∧
      ¬ Matches SameOutcome (fun s s' => s.kernel = s'.kernel)
        (perform false zeroEnv (.access 0 ['w']) s)
        (perform false zeroEnv (.command (.write 0)) s) := by
  obtain ⟨s, reached, access, write⟩ := exists_of_endsWith
    (perform false zeroEnv) allocThenFork init
    (fun s => said (perform false zeroEnv (.access 0 ['w']) s) =
        some (.unable 0) ∧
      said (perform false zeroEnv (.command (.write 0)) s) =
        some (.translated false 0 1)) (by decide +kernel)
  refine ⟨s, reached, access, write, fun matched => ?_⟩
  have same := said_eq matched
  rw [access, write] at same
  simp at same

end OsPAs.Vm
