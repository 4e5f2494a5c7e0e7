/-
Module: OsPAs.Sched.Sentinel
Purpose: `stcf_schedule` and its bound `MAX_TC`, which stands for a current
  process that is absent or finished.  The bound is a remaining time that a
  ready process may have, and the choice is the intended one exactly while the
  two are not confused.
Trusted boundary: none
Main exports: remaining, Competes, Shortest, PicksShortest, WithinSentinel,
  picksShortest_iff, stcf_picks_shortest_iff
-/
import OsPAs.Sched.Jobs

namespace OsPAs.Sched

open Lib

variable {n : Nat}

/-! ### What STCF is for -/

/-- The remaining time of a process, as a number. -/
def remaining (s : Sim n) (p : Fin n) : Nat :=
  (s.procs p).lifespan - (s.procs p).age

/-- The processes that compete for the next tick: the ready ones and the current
one, if it is unfinished. -/
def Competes (s : Sim n) (p : Fin n) : Prop :=
  p ∈ s.readyqueue ∨ s.current = some p ∧ unfinished s p

/-- The choice that STCF should make: nobody only if nobody competes, otherwise
an unfinished process with the least remaining time, and the current one if it
is among those. -/
structure Shortest (s : Sim n) (next : Option (Fin n)) : Prop where
  nobody : next = none → ∀ p, ¬ Competes s p
  least : ∀ p, next = some p → unfinished s p ∧ Competes s p ∧
    ∀ q, Competes s q → remaining s p ≤ remaining s q
  keeps : ∀ c, s.current = some c → unfinished s c →
    (∀ q, Competes s q → remaining s c ≤ remaining s q) → next = some c

/-- `stcf_schedule` makes this choice. -/
def PicksShortest (s : Sim n) : Prop :=
  ∃ next s', stcfSchedule s = .ok (next, s') ∧ Shortest s next

/-- Nobody is ready, or the current process is unfinished, or some ready process
has less than `MAX_TC` left. -/
def WithinSentinel (s : Sim n) : Prop :=
  s.readyqueue = [] ∨ (∃ c, s.current = some c ∧ unfinished s c) ∨
    ∃ p ∈ s.readyqueue, remaining s p < maxTc

instance (s : Sim n) : Decidable (WithinSentinel s) :=
  inferInstanceAs (Decidable (_ ∨ _ ∨ _))

/-! ### One call -/

section Call

variable {s s' : Sim n} {next : Option (Fin n)}

/-- What is known of the state in which a run calls `stcf_schedule`. -/
structure Callable (s : Sim n) : Prop where
  awake : Awake s
  loose : CurrentLoose s
  young : ∀ p ∈ s.readyqueue, unfinished s p
  bounded : ∀ p, (s.procs p).age ≤ (s.procs p).lifespan

/-- The difference of `unsigned int`s is the remaining time. -/
theorem Callable.timeToComplete_eq (callable : Callable s) (p : Fin n) :
    timeToComplete s p = remaining s p :=
  subUInt_of_le (callable.bounded p)

theorem Callable.curTc_of_current (callable : Callable s) {c : Fin n}
    (isCurrent : s.current = some c) (alive : unfinished s c) :
    curTc s = remaining s c := by
  rw [curTc_of_unfinished isCurrent (callable.awake c) alive,
    callable.timeToComplete_eq]

/-- Where nobody runs on, the bound of the scan is the sentinel. -/
theorem curTc_of_nobody
    (nobody : ¬ ∃ c, s.current = some c ∧ unfinished s c) : curTc s = maxTc :=
  curTc_of_done fun c isCurrent => .inr fun alive => nobody ⟨c, isCurrent, alive⟩

/-- A choice as intended was made within the sentinel. -/
theorem Callable.within (callable : Callable s)
    (scheduled : stcfSchedule s = .ok (next, s')) (shortest : Shortest s next) :
    WithinSentinel s := by
  by_cases runsOn : ∃ c, s.current = some c ∧ unfinished s c
  · exact .inr (.inl runsOn)
  · have picks := stcfSchedule_picks scheduled
    generalize isNext : next = returned at picks
    cases picks with
    | alone nobody _ _ _ => exact .inl nobody
    | idle nobody _ => exact .inl nobody
    | unbeaten somebody _ =>
        cases isCurrent : s.current with
        | none =>
            obtain ⟨p, isReady⟩ := List.exists_mem_of_ne_nil _ somebody
            exact absurd (.inl isReady)
              (shortest.nobody (isNext.trans isCurrent) p)
        | some c =>
            have alive := (shortest.least c (isNext.trans isCurrent)).1
            exact absurd ⟨c, isCurrent, alive⟩ runsOn
    | @beaten p isReady below _ =>
        rw [curTc_of_nobody runsOn, callable.timeToComplete_eq] at below
        exact .inr (.inr ⟨p, isReady, below⟩)

/-- Within the sentinel, a scan that finds nobody leaves an unfinished current
process. -/
theorem Callable.unfinished_of_unbeaten (callable : Callable s)
    (within : WithinSentinel s) (somebody : s.readyqueue ≠ [])
    (above : ∀ q ∈ s.readyqueue, curTc s ≤ timeToComplete s q) :
    ∃ c, s.current = some c ∧ unfinished s c := by
  by_contra nobody
  rcases within with empty | runsOn | ⟨p, isReady, inReach⟩
  · exact somebody empty
  · exact nobody runsOn
  · have bound := above p isReady
    rw [curTc_of_nobody nobody, callable.timeToComplete_eq] at bound
    exact absurd inReach (Nat.not_lt.mpr bound)

/-- Within the sentinel the choice is the intended one. -/
theorem Callable.shortest (callable : Callable s)
    (scheduled : stcfSchedule s = .ok (next, s')) (within : WithinSentinel s) :
    Shortest s next := by
  have picks := stcfSchedule_picks scheduled
  cases picks with
  | @alone c nobody isCurrent _ alive =>
      have isOnly {q : Fin n} (competes : Competes s q) : q = c := by
        rcases competes with isReady | ⟨isOther, _⟩
        · simp [nobody] at isReady
        · exact Option.some.inj (isOther.symm.trans isCurrent)
      refine ⟨by simp, fun p isNext => ?_, fun other isOther _ _ => ?_⟩
      · obtain rfl := Option.some.inj isNext
        exact ⟨alive, .inr ⟨isCurrent, alive⟩,
          fun q competes => by rw [isOnly competes]⟩
      · exact isCurrent.symm.trans isOther
  | idle nobody done =>
      have finished (c : Fin n) (isCurrent : s.current = some c) :
          ¬ unfinished s c := (done c isCurrent).resolve_left (callable.awake c)
      refine ⟨fun _ p competes => ?_, by simp,
        fun c isCurrent alive _ => absurd alive (finished c isCurrent)⟩
      rcases competes with isReady | ⟨isCurrent, alive⟩
      · simp [nobody] at isReady
      · exact finished p isCurrent alive
  | unbeaten somebody above =>
      obtain ⟨c, isCurrent, alive⟩ :=
        callable.unfinished_of_unbeaten within somebody above
      rw [isCurrent]
      refine ⟨by simp, fun p isNext => ?_, fun other isOther _ _ => ?_⟩
      · obtain rfl := Option.some.inj isNext
        refine ⟨alive, .inr ⟨isCurrent, alive⟩, fun q competes => ?_⟩
        rcases competes with isReady | ⟨isOther, _⟩
        · rw [← callable.curTc_of_current isCurrent alive,
            ← callable.timeToComplete_eq]
          exact above q isReady
        · rw [Option.some.inj (isOther.symm.trans isCurrent)]
      · exact isCurrent.symm.trans isOther
  | @beaten p isReady below least =>
      refine ⟨by simp, fun other isNext => ?_, fun c isCurrent alive unbeaten => ?_⟩
      · obtain rfl := Option.some.inj isNext
        refine ⟨callable.young p isReady, .inl isReady, fun q competes => ?_⟩
        rcases competes with isOther | ⟨isCurrent, alive⟩
        · simpa only [callable.timeToComplete_eq] using least q isOther
        · rw [callable.curTc_of_current isCurrent alive,
            callable.timeToComplete_eq] at below
          exact Nat.le_of_lt below
      · -- the current process would have been kept
        rw [callable.curTc_of_current isCurrent alive,
          callable.timeToComplete_eq] at below
        exact absurd below (Nat.not_lt.mpr (unbeaten p (.inl isReady)))

/-- One call makes the intended choice exactly within the sentinel. -/
theorem picksShortest_iff (callable : Callable s) :
    PicksShortest s ↔ WithinSentinel s := by
  constructor
  · rintro ⟨next, s', scheduled, shortest⟩
    exact callable.within scheduled shortest
  · intro within
    obtain ⟨next, s', scheduled, _⟩ :=
      (Policy.contract_awake .stcf).schedule s callable.awake callable.loose
    exact ⟨next, s', scheduled, callable.shortest scheduled within⟩

end Call

/-! ### Whole runs -/

section Runs

variable {script : List ProcessBlock} {k : Nat} {s : Sim script.length}

/-- The states in which a run on plain jobs calls `stcf_schedule`. -/
theorem PlainJobs.callable (plain : PlainJobs script)
    (reached : doSimulation script stcfScheduler k = .ok (.again s)) :
    Callable (forkOnSchedule s) := by
  obtain ⟨settled, _⟩ := plain.settled .stcf reached
  exact
    { awake := settled.awake_forked plain.entries_eq
      loose := settled.sound.loose_forked
      young := fun p isReady =>
        settled.whole_forked.young p fun loose => loose.2.1 isReady
      bounded := settled.whole_forked.bounded }

end Runs

/-- STCF picks the process with the least remaining time in every call up to
pass `k` exactly if every one of these calls is within the sentinel: somebody
unfinished is running, nobody is ready, or somebody ready has less than `MAX_TC`
ticks left. -/
theorem stcf_picks_shortest_iff (script : List ProcessBlock)
    (plain : PlainJobs script) (k : Nat) :
    (∀ j ≤ k, ∀ s, doSimulation script stcfScheduler j = .ok (.again s) →
      PicksShortest (forkOnSchedule s)) ↔
    ∀ j ≤ k, ∀ s, doSimulation script stcfScheduler j = .ok (.again s) →
      WithinSentinel (forkOnSchedule s) := by
  constructor
  · intro picks j upTo s reached
    exact (picksShortest_iff (plain.callable reached)).mp (picks j upTo s reached)
  · intro within j upTo s reached
    exact (picksShortest_iff (plain.callable reached)).mpr (within j upTo s reached)

/-- A process of the shortest lifespan, and one that `MAX_TC` is no bound for. -/
def shortThenHuge : List ProcessBlock :=
  [{ pid := 1, start := 0, lifespan := 1 },
   { pid := 2, start := 0, lifespan := 100000000 }]

/-- The second process alone. -/
def hugeAlone : List ProcessBlock :=
  [{ pid := 2, start := 0, lifespan := 100000000 }]

/-- When the short process is finished, STCF returns it once more, though the
other one is ready, and the run stops at the use of the freed process.  When the
other one is alone, STCF returns nobody. -/
theorem stcf_misses_shortest :
    (∃ s p s', doSimulation shortThenHuge stcfScheduler 1 = .ok (.again s) ∧
      stcfSchedule (forkOnSchedule s) = .ok (some p, s') ∧
      ¬ unfinished (forkOnSchedule s) p ∧
      ¬ PicksShortest (forkOnSchedule s)) ∧
    doSimulation shortThenHuge stcfScheduler 2 = .error .useAfterFree ∧
    ∃ s s', doSimulation hugeAlone stcfScheduler 0 = .ok (.again s) ∧
      stcfSchedule (forkOnSchedule s) = .ok (none, s') ∧
      (forkOnSchedule s).readyqueue ≠ [] ∧
      ¬ PicksShortest (forkOnSchedule s) := by
  refine ⟨?_, rfl, ?_⟩
  · obtain ⟨s, reached, returned⟩ := exists_of_againWith
      (fun s => okWith (fun answer => ∃ p, answer.1 = some p ∧
        ¬ unfinished (forkOnSchedule s) p)
        (stcfSchedule (forkOnSchedule s)) = true)
      (doSimulation shortThenHuge stcfScheduler 1) (by decide +kernel)
    obtain ⟨⟨next, s'⟩, scheduled, p, isNext, finished⟩ :=
      exists_of_okWith _ _ returned
    obtain rfl : next = some p := isNext
    refine ⟨s, p, s', reached, scheduled, finished, ?_⟩
    rintro ⟨next, other, again, shortest⟩
    obtain ⟨rfl, _⟩ := Prod.mk.inj (Except.ok.inj (scheduled.symm.trans again))
    exact finished (shortest.least p rfl).1
  · obtain ⟨s, reached, returned, somebody⟩ := exists_of_againWith
      (fun s => okWith (fun answer => answer.1 = none)
          (stcfSchedule (forkOnSchedule s)) = true ∧
        (forkOnSchedule s).readyqueue ≠ [])
      (doSimulation hugeAlone stcfScheduler 0) (by decide +kernel)
    obtain ⟨⟨next, s'⟩, scheduled, isNext⟩ := exists_of_okWith _ _ returned
    obtain rfl : next = none := isNext
    refine ⟨s, s', reached, scheduled, somebody, ?_⟩
    rintro ⟨next, other, again, shortest⟩
    obtain ⟨rfl, _⟩ := Prod.mk.inj (Except.ok.inj (scheduled.symm.trans again))
    obtain ⟨p, isReady⟩ := List.exists_mem_of_ne_nil _ somebody
    exact shortest.nobody rfl p (.inl isReady)

/-- A process that is preempted by a shorter one, and one that ties with it. -/
def preemptedAndTied : List ProcessBlock :=
  [{ pid := 1, start := 0, lifespan := 4 },
   { pid := 2, start := 1, lifespan := 1 },
   { pid := 3, start := 2, lifespan := 3 }]

/-- All calls of the run are within the sentinel. -/
theorem stcf_picks_shortest_preemptedAndTied :
    (∃ s, doSimulation preemptedAndTied stcfScheduler 8 = .ok (.again s)) ∧
      ∀ j ≤ 8, ∀ s,
        doSimulation preemptedAndTied stcfScheduler j = .ok (.again s) →
        PicksShortest (forkOnSchedule s) := by
  obtain ⟨s, reached, _⟩ := exists_of_againWith (fun _ => True)
    (doSimulation preemptedAndTied stcfScheduler 8) (by decide +kernel)
  have calls : ∀ j ≤ 8, againAll (fun s => WithinSentinel (forkOnSchedule s))
      (doSimulation preemptedAndTied stcfScheduler j) = true := by decide +kernel
  exact ⟨⟨s, reached⟩,
    (stcf_picks_shortest_iff preemptedAndTied (by decide) 8).mpr
      fun j upTo s => forall_of_againAll _ _ (calls j upTo) s⟩

end OsPAs.Sched
