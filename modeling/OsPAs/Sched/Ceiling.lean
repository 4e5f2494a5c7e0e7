/-
Module: OsPAs.Sched.Ceiling
Purpose: The priority ceiling protocol.  An owner keeps the ceiling exactly as
  long as it never releases one resource while it keeps another.
Trusted boundary: none
Main exports: Ceiling, ReleasesAtOnce, CeilingTick, Ceiling.body,
  ceiling_kept
-/
import OsPAs.Sched.Priorities

namespace OsPAs.Sched

open Lib

variable {n : Nat}

/-- Process `p` has the ceiling priority if it owns a resource. -/
def AtCeiling (s : Sim n) (p : Fin n) : Prop :=
  ∀ r, s.owner r = some p → (s.procs p).prio = maxPrio

/-- Every owner has the ceiling priority. -/
def Ceiling (s : Sim n) : Prop := ∀ p, AtCeiling s p

/-- About to enter `__run_current_release`, process `c` is not going to release
one resource and keep another, unless its original priority is the ceiling. -/
def ReleasesAtOnce (s : Sim n) (c : Fin n) : Prop :=
  (∃ rs ∈ (s.procs c).resourcesHolding, rs.duration = 1) →
    (∀ rs ∈ (s.procs c).resourcesHolding, rs.duration = 1) ∨
      (s.procs c).prioOrig = maxPrio

/-- In the tick that begins in state `s`, `__run_current_release` is entered, if
at all, in a state that it can handle. -/
def CeilingTick (s : Sim n) : Prop :=
  ∀ mid c t, dispatch pcpScheduler s = .ok mid → mid.current = some c →
    runCurrentAcquire pcpScheduler c (mid.setStatus c .running) =
      .ok (true, t) → ReleasesAtOnce t c

instance (s : Sim n) (p : Fin n) : Decidable (AtCeiling s p) :=
  inferInstanceAs (Decidable (∀ _, _ → _))

instance (s : Sim n) : Decidable (Ceiling s) :=
  inferInstanceAs (Decidable (∀ p, AtCeiling s p))

instance (s : Sim n) (c : Fin n) : Decidable (ReleasesAtOnce s c) :=
  inferInstanceAs (Decidable (_ → _ ∨ _))

instance (s : Sim n) : Decidable (CeilingTick s) :=
  decidable_of_iff
    (∀ mid ∈ (dispatch pcpScheduler s).toOption, ∀ c ∈ mid.current,
      ∀ result ∈ (runCurrentAcquire pcpScheduler c
        (mid.setStatus c .running)).toOption,
        result.1 = true → ReleasesAtOnce result.2 c)
    (by
      constructor
      · intro all mid c t dispatchedEq isCurrent acquired
        exact all mid (mem_toOption.mpr dispatchedEq) c isCurrent (true, t)
          (mem_toOption.mpr acquired) rfl
      · intro tick mid isMid c isCurrent result isResult granted
        obtain ⟨_, t⟩ := result
        obtain rfl : _ = true := granted
        exact tick mid c t (mem_toOption.mp isMid) isCurrent
          (mem_toOption.mp isResult))

theorem Ceiling.of_same {s s' : Sim n} (ceiling : Ceiling s)
    (same : SamePriorities s s') : Ceiling s' := by
  intro p r owns
  rw [same.prio]
  exact ceiling p r (same.owner ▸ owns)

section Tick

variable {s s' t : Sim n} {c : Fin n} {r : Fin nrResources}

/-- `pcp_acquire` raises the process that gets the resource to the ceiling. -/
theorem Ceiling.granted {resourceId : Nat} (ceiling : Ceiling s)
    (acquired : pcpAcquire c resourceId s = .ok (true, s')) : Ceiling s' := by
  obtain ⟨i, _, rfl⟩ := acquireWith_granted acquired
  intro p r owns
  change Function.update s.owner i (some c) r = some p at owns
  rw [Sim.setPrio, Sim.modify_procs]
  split
  · rfl
  · rename_i other
    refine ceiling p r ?_
    rw [Function.update_apply] at owns
    split at owns
    · exact absurd (Option.some.inj owns).symm other
    · exact owns

/-- A refused request changes neither owners nor priorities. -/
theorem Ceiling.refused {resourceId : Nat} (ceiling : Ceiling s)
    (acquired : pcpAcquire c resourceId s = .ok (false, s'))
    (move : Requested s c r false s') : Ceiling s' := by
  obtain ⟨_, _, _, _, prio⟩ := acquireWith_refused acquired
  intro p i owns
  rw [prio]
  exact ceiling p i (move.owner_refused ▸ owns)

/-- What is left of the ceiling while process `c` is releasing: either it does
not release anything it must not, or everything it holds goes. -/
structure CeilingTurn (t : Sim n) (c : Fin n)
    (kept todo : List ResourceSchedule) : Prop where
  others : ∀ p, p ≠ c → AtCeiling t p
  current : (AtCeiling t c ∧
      ((t.procs c).prioOrig = maxPrio ∨ ∀ rs ∈ todo, rs.duration ≠ 1)) ∨
    kept = [] ∧ ∀ rs ∈ todo, rs.duration = 1

theorem CeilingTurn.start (ceiling : Ceiling t)
    (atOnce : ReleasesAtOnce t c) :
    CeilingTurn t c [] (t.procs c).resourcesHolding where
  others := fun p _ => ceiling p
  current := by
    by_cases releases : ∃ rs ∈ (t.procs c).resourcesHolding, rs.duration = 1
    · rcases atOnce releases with everything | high
      · exact Or.inr ⟨rfl, everything⟩
      · exact Or.inl ⟨ceiling c, Or.inl high⟩
    · refine Or.inl ⟨ceiling c, Or.inr fun rs member last => ?_⟩
      exact releases ⟨rs, member, last⟩

theorem CeilingTurn.of_same {kept todo : List ResourceSchedule}
    (turn : CeilingTurn s c kept todo) (same : SamePriorities s s') :
    CeilingTurn s' c kept todo where
  others := fun p other r owns => by
    rw [same.prio]
    exact turn.others p other r (same.owner ▸ owns)
  current := by
    rcases turn.current with ⟨atCeiling, why⟩ | everything
    · refine Or.inl ⟨fun r owns => ?_, by rwa [same.prioOrig]⟩
      rw [same.prio]
      exact atCeiling r (same.owner ▸ owns)
    · exact Or.inr everything

theorem CeilingTurn.keep {kept rest : List ResourceSchedule}
    {rs : ResourceSchedule} (turn : CeilingTurn t c kept (rs :: rest))
    (goesOn : subUInt rs.duration 1 ≠ 0) :
    CeilingTurn t c (kept ++ [rs.countDown]) rest where
  others := turn.others
  current := by
    rcases turn.current with ⟨atCeiling, why⟩ | ⟨_, everything⟩
    · refine Or.inl ⟨atCeiling, why.imp id fun never other member => ?_⟩
      exact never other (List.mem_cons_of_mem rs member)
    · exact absurd (everything rs List.mem_cons_self)
        (subUInt_one_eq_zero.not.mp goesOn)

/-- `pcp_release` drops the process to its original priority. -/
theorem CeilingTurn.drop {kept rest : List ResourceSchedule}
    {rs : ResourceSchedule} (turn : CeilingTurn t c kept (rs :: rest))
    (last : subUInt rs.duration 1 = 0) {resourceId : Nat}
    (released : pcpRelease c resourceId t = .ok s')
    (move : Released t c r s') : CeilingTurn s' c kept rest := by
  have prio := releaseWith_prio released
  have prioOrig := (SameScript.released move).prioOrig c
  constructor
  · intro p other i owns
    rw [prio, restorePrio_prio, if_neg other]
    exact turn.others p other i (move.owner_of_owner owns)
  · rcases turn.current with ⟨_, high | never⟩ | ⟨nothing, everything⟩
    · refine Or.inl ⟨fun i owns => ?_, Or.inl (prioOrig.trans high)⟩
      rw [prio, restorePrio_prio, if_pos rfl]
      exact high
    · exact absurd (subUInt_one_eq_zero.mp last) (never rs List.mem_cons_self)
    · exact Or.inr ⟨nothing, fun other member =>
        everything other (List.mem_cons_of_mem rs member)⟩

/-- After the releases every owner is at the ceiling again. -/
theorem CeilingTurn.ceiling {all : Fin n → List ResourceSchedule} {age : Nat}
    {kept : List ResourceSchedule} (turn : CeilingTurn t c kept [])
    (books : OpenBooks all t c age kept []) : Ceiling t := by
  intro p r owns
  by_cases same : p = c
  · subst same
    rcases turn.current with ⟨atCeiling, _⟩ | ⟨nothing, _⟩
    · exact atCeiling r owns
    · have counted := books.owned r
      rw [if_pos owns, nothing] at counted
      simp [entriesFor] at counted
  · exact turn.others p same r owns

end Tick

/-- What is carried through a tick of the chosen process under PCP. -/
theorem Ceiling.carries {all : Fin n → List ResourceSchedule} {s : Sim n}
    {c : Fin n} (ceiling : Ceiling s) (prepared : Prepared all s)
    (fitting : Fitting all s) (isCurrent : s.current = some c)
    (atOnce : ∀ t, runCurrentAcquire pcpScheduler c (s.setStatus c .running) =
      .ok (true, t) → ReleasesAtOnce t c) :
    Carries pcpScheduler True s c
      (fun kept todo t => Asking all s c kept todo t ∧ Ceiling t)
      (fun stay t => TurnedDown all c stay t ∧ Ceiling t)
      (fun kept todo t =>
        Releasing all s c kept todo t ∧ CeilingTurn t c kept todo) := by
  apply (prepared.carries pcpScheduler fitting isCurrent).alongside
  · exact ceiling.of_same (Steady.setStatus s c .running).priorities
  · intro kept rs rest t _ _ ceiling _
    exact ceiling
  · intro kept rs rest t inside t' _ _ ceiling _ _ acquired _
    have granted := ceiling.granted acquired
    exact granted.of_same ((Steady.hold t' c rs).trans (.print _ _)).priorities
  · intro kept rs rest t inside t' _ _ ceiling _ _ acquired move
    exact (ceiling.refused acquired move).of_same (Steady.print _ _).priorities
  · intro stay t _ _ ceiling acquired
    have started := CeilingTurn.start
      (ceiling.of_same (Steady.setToAcquire t c stay).priorities) (atOnce _ acquired)
    rw [setToAcquire_procs] at started
    exact started.of_same ((Steady.print _ _).trans (.growOlder _ c)).priorities
  · intro kept rs rest t _ _ turn goesOn
    exact turn.keep goesOn
  · intro kept rs rest t inside t' _ _ turn last released move _
    exact (turn.drop last released move).of_same (Steady.print _ _).priorities

/-! ### Whole runs -/

section Reached

variable {script : List ProcessBlock}

/-- One pass under PCP keeps every owner at the ceiling, if the releases in it
are of the kind that PCP can handle. -/
theorem Ceiling.body {all : Fin n → List ResourceSchedule} {s s' : Sim n}
    (ceiling : Ceiling s) (settled : Settled all s) (fitting : Fitting all s)
    (tick : CeilingTick s) (ran : body pcpScheduler s = .ok (.again s')) :
    Ceiling s' := by
  have contract : Contract True (fun _ : Sim n => True) pcpScheduler :=
    Policy.contract (show Policy.pcp ∈ statusAware by decide)
  obtain ⟨mid, dispatchedEq, _, executedEq⟩ := body_again ran
  obtain ⟨mid', eq, _, prepared, fittingMid, _⟩ :=
    settled.body contract fitting trivial
  obtain rfl := Except.ok.inj (dispatchedEq.symm.trans eq)
  have ceilingMid := ceiling.of_same
    (dispatch_samePriorities contract rfl settled.sound trivial dispatchedEq)
  cases isCurrent : mid.current with
  | none =>
      obtain rfl := Except.ok.inj
        ((execute_of_idle pcpScheduler isCurrent).symm.trans executedEq)
      exact ceilingMid.of_same ((Steady.print _ _).trans (.nextTick _)).priorities
  | some c =>
      have carries := ceilingMid.carries prepared fittingMid isCurrent
        fun t acquired => tick mid c t dispatchedEq isCurrent acquired
      obtain ⟨stay, t, ⟨rfl, _, _, after⟩ | ⟨rfl, _, books, turn⟩⟩ :=
        carries.executed contract prepared.dispatched isCurrent executedEq
      · exact after.of_same
          ((Steady.setToAcquire t c stay).trans (.nextTick _)).priorities
      · exact (turn.ceiling books.1).of_same
          ((Steady.setHolding t c stay).trans (.nextTick _)).priorities

/-- As long as PCP is not asked to release one resource of a process that keeps
another, every owner has the ceiling priority between any two ticks. -/
theorem ceiling_kept (script : List ProcessBlock)
    (wellFormed : WellFormed script) (k : Nat)
    (ticks : ∀ j < k, ∀ s, doSimulation script pcpScheduler j = .ok (.again s) →
      CeilingTick s)
    (s : Sim script.length)
    (reached : doSimulation script pcpScheduler k = .ok (.again s)) :
    ∀ p r, s.owner r = some p → (s.procs p).prio = maxPrio := by
  induction k generalizing s with
  | zero =>
      obtain rfl : load script = s := by simpa [doSimulation] using reached
      intro p r owns
      simp [load] at owns
  | succ k inductionHypothesis =>
      obtain ⟨before, beforeReached, ran⟩ := iterate_succ_again reached
      have ceiling : Ceiling before := inductionHypothesis
        (fun j lt => ticks j (Nat.lt_succ_of_lt lt)) before beforeReached
      obtain ⟨settled, fitting⟩ := reached_settled
        (show Policy.pcp ∈ statusAware by decide) wellFormed beforeReached
      exact ceiling.body settled fitting
        (ticks k (Nat.lt_succ_self k) before beforeReached) ran

/-- One process that takes two resources and gives them back together. -/
def returnsTogether : List ProcessBlock :=
  [{ pid := 1, start := 0, lifespan := 3, prio := 5
     acquires := [⟨1, 0, 2⟩, ⟨2, 0, 2⟩] }]

theorem ceiling_kept_returnsTogether :
    ∃ s, doSimulation returnsTogether pcpScheduler 1 = .ok (.again s) ∧
      (∃ p, s.owner ⟨1, by decide⟩ = some p ∧
        s.owner ⟨2, by decide⟩ = some p) ∧
      ∀ p r, s.owner r = some p → (s.procs p).prio = maxPrio := by
  obtain ⟨s, reached, owned⟩ := exists_of_againWith
    (fun s : Sim returnsTogether.length => ∃ p,
      s.owner ⟨1, by decide⟩ = some p ∧ s.owner ⟨2, by decide⟩ = some p)
    (doSimulation returnsTogether pcpScheduler 1) (by decide +kernel)
  have ticks : ∀ j < 1,
      againAll CeilingTick (doSimulation returnsTogether pcpScheduler j) =
        true := by decide +kernel
  exact ⟨s, reached, owned, ceiling_kept returnsTogether (by decide) 1
    (fun j lt => forall_of_againAll CeilingTick _ (ticks j lt)) s reached⟩

/-- One process that takes two resources and gives one back early. -/
def returnsOneEarly : List ProcessBlock :=
  [{ pid := 1, start := 0, lifespan := 3, prio := 5
     acquires := [⟨1, 0, 1⟩, ⟨2, 0, 3⟩] }]

/-- After its first tick the process owns a resource without the ceiling. -/
theorem ceiling_lost :
    WellFormed returnsOneEarly ∧
      (∀ block ∈ returnsOneEarly, block.prio.toNat ≤ maxPrio) ∧
      ∃ s, doSimulation returnsOneEarly pcpScheduler 1 = .ok (.again s) ∧
        ∃ p r, s.owner r = some p ∧ (s.procs p).prio ≠ maxPrio := by
  obtain ⟨s, reached, lost⟩ := exists_of_againWith
    (fun s => ∃ p r, s.owner r = some p ∧ (s.procs p).prio ≠ maxPrio)
    (doSimulation returnsOneEarly pcpScheduler 1) (by decide +kernel)
  exact ⟨by decide, by decide, s, reached, lost⟩

end Reached

end OsPAs.Sched
