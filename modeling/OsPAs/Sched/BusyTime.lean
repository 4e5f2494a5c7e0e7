/-
Module: OsPAs.Sched.BusyTime
Purpose: On scripts without acquire lines all eight policies are work-conserving
  schedules of the same jobs, so they idle at the same ticks and end at the
  same tick, and each of them runs every process for exactly its lifespan.
Trusted boundary: none
Main exports: JobScript.serves, Serves.workConserving, printedAt,
  busy_time_agrees
-/
import OsPAs.Lib.WorkConserving
import OsPAs.Sched.ShortestTime
import OsPAs.Sched.Termination

namespace OsPAs.Sched

open Lib

variable {n : Nat}

/-! ### The eight policies serve jobs -/

theorem rrScheduler_awake : Contract True (Awake (n := n)) rrScheduler :=
  contract_of_schedule
    (fun _ awake => rrSchedule_chooses True
      fun c _ asleep => absurd asleep (awake c))
    (fun _ => prioOnly_id) (fun _ _ => prioOnly_id) (fun _ => prioOnly_id)
    firstWaiter_mem

/-- A contract holds under a stronger guard. -/
theorem Contract.of_guard {live : Prop} {guard stronger : Sim n → Prop}
    {sched : Scheduler n} (contract : Contract live guard sched)
    (implies : ∀ s, stronger s → guard s) : Contract live stronger sched :=
  ⟨fun s guarded => contract.schedule s (implies s guarded), contract.acquire,
    contract.release, contract.releaseOwned⟩

/-- A contract with `live` is one without it. -/
theorem Contract.of_live {guard : Sim n → Prop} {sched : Scheduler n}
    (contract : Contract True guard sched) : Contract False guard sched where
  schedule := fun s guarded loose => by
    obtain ⟨next, s', scheduled, choice⟩ := contract.schedule s guarded loose
    refine ⟨next, s', scheduled, ?_⟩
    cases choice with
    | keep prio isCurrent awake _ => exact .keep prio isCurrent awake False.elim
    | idle _ done => exact .idle False.elim done
    | pick prio isReady done => exact .pick prio isReady done
    | preempt prio isReady isCurrent awake alive =>
        exact .preempt prio isReady isCurrent awake alive
  acquire := contract.acquire
  release := contract.release
  releaseOwned := contract.releaseOwned

/-- Where nobody is blocked every policy keeps the contract without `live`. -/
theorem Policy.contract_awake (policy : Policy) :
    Contract False (Awake (n := n)) policy.scheduler := by
  by_cases aware : policy ∈ statusAware
  · exact (Policy.contract aware).of_live.of_guard fun _ _ => trivial
  · cases policy with
    | stcf =>
        exact stcfScheduler_contract.of_guard fun _ awake =>
          ⟨fun c _ asleep => absurd asleep (awake c),
            fun c _ asleep => absurd asleep (awake c)⟩
    | rr => exact rrScheduler_awake.of_live
    | _ => exact absurd (by decide) aware

theorem Policy.contract_allShort (policy : Policy) :
    Contract True (AllShort (n := n)) policy.scheduler := by
  by_cases aware : policy ∈ statusAware
  · exact (Policy.contract aware).of_guard fun _ _ => trivial
  · cases policy with
    | stcf => exact stcfScheduler_allShort
    | rr => exact rrScheduler_awake.of_guard fun _ guard => guard.awake
    | _ => exact absurd (by decide) aware

/-- Every policy keeps the contract along the runs on a script of jobs. -/
theorem JobScript.serves {script : List ProcessBlock} (jobs : JobScript script)
    (policy : Policy) : Serves script AllShort policy.scheduler where
  contract := policy.contract_allShort
  wellFormed := jobs.wellFormed
  guarded := by
    intro s settled _ same
    apply settled.allShort jobs.entries_eq
    intro p
    rw [same.lifespan p]
    exact (jobs _ (List.get_mem script p)).2.2

/-! ### The schedule of a run -/

section Runs

variable {script : List ProcessBlock} {guard : Sim script.length → Prop}
  {sched : Scheduler script.length} {k : Nat} {s mid : Sim script.length}

theorem pass_of_chosenAt (serves : Serves script guard sched)
    {p : Fin script.length} (chosen : chosenAt script sched k = some p) :
    ∃ s mid, doSimulation script sched k = .ok (.again s) ∧
      PassOf script sched k s mid ∧ mid.current = some p := by
  obtain ⟨s, mid, reached, dispatchedEq, isCurrent⟩ :=
    dispatched_of_chosenAt chosen
  obtain ⟨mid', pass⟩ := serves.pass reached
  obtain rfl := Except.ok.inj (dispatchedEq.symm.trans pass.dispatchedEq)
  exact ⟨s, mid, reached, pass, isCurrent⟩

/-- A process is as old as the number of passes it has been chosen in. -/
theorem Serves.ages (serves : Serves script guard sched)
    (noEntries : ∀ p, entries script p = [])
    (reached : doSimulation script sched k = .ok (.again s))
    (p : Fin script.length) :
    (s.procs p).age = ran (chosenAt script sched) p k := by
  apply serves.invariant
    (fun k s => (s.procs p).age = ran (chosenAt script sched) p k) rfl _ reached
  intro k s mid s' reached age pass _ executedEq _
  have ticked := pass.prepared.ticked noEntries executedEq
  rw [ticked.ages, (pass.dispatching.entries p).age, age, ran_succ,
    chosenAt_of_dispatched reached pass.dispatchedEq]

/-- Whoever has been forked, is not ready, does not wait and does not get the
processor has exited. -/
theorem Whole.exited_of_absent {s : Sim n} {run : Option (Fin n)} {p : Fin n}
    (whole : Whole s run) (nowhere : ∀ r, p ∉ s.waitqueue r)
    (forked : p ∉ s.forkqueue) (notReady : p ∉ s.readyqueue)
    (notRun : run ≠ some p) : (s.procs p).status = .exit := by
  by_contra present
  have one := whole.accounted p present
  unfold tally at one
  rw [List.count_eq_zero.mpr forked, List.count_eq_zero.mpr notReady,
    occurrences_eq_zero.mpr nowhere, if_neg notRun] at one
  simp at one

/-- Without entries every waitqueue is empty. -/
theorem Settled.nowhere {all : Fin n → List ResourceSchedule} {s : Sim n}
    (settled : Settled all s) (noEntries : ∀ p, all p = []) (p : Fin n)
    (r : Fin nrResources) : p ∉ s.waitqueue r := fun waits =>
  settled.awake_of_noEntries noEntries p (settled.sound.linked.waiting p r waits)

/-- Whoever has been forked and is neither ready nor chosen has exited. -/
theorem PassOf.exited_of_absent (pass : PassOf script sched k s mid)
    (settled : Settled (entries script) s)
    (noEntries : ∀ p, entries script p = []) {p : Fin script.length} (forked : p ∉ mid.forkqueue)
    (notReady : p ∉ mid.readyqueue) (notChosen : mid.current ≠ some p) :
    (mid.procs p).status = .exit := by
  refine pass.prepared.whole.exited_of_absent ?_ forked notReady notChosen
  rw [pass.dispatching.waitqueue]
  exact settled.nowhere noEntries p

/-- Whoever has been forked and is neither ready nor chosen is finished. -/
theorem PassOf.finished_of_absent (pass : PassOf script sched k s mid)
    (serves : Serves script guard sched)
    (noEntries : ∀ p, entries script p = [])
    (reached : doSimulation script sched k = .ok (.again s))
    {p : Fin script.length} (forked : p ∉ mid.forkqueue) (notReady : p ∉ mid.readyqueue)
    (notChosen : mid.current ≠ some p) :
    ran (chosenAt script sched) p k = lifespanOf script p := by
  have timed := serves.timed reached
  have exited :=
    pass.exited_of_absent timed.settled noEntries forked notReady notChosen
  have finished := pass.prepared.whole.finished p exited
  have same := SameScript.dispatched serves.contract timed.settled.sound
    (serves.guard_of_reached reached) pass.dispatchedEq
  rw [(pass.dispatching.entries p).age, same.lifespan, timed.lifespan,
    serves.ages noEntries reached] at finished
  exact finished

/-- Where the processor idles everybody who has been forked has exited. -/
theorem PassOf.exited_of_idle (pass : PassOf script sched k s mid)
    (settled : Settled (entries script) s)
    (noEntries : ∀ p, entries script p = []) (isIdle : mid.current = none)
    {p : Fin script.length} (forked : p ∉ mid.forkqueue) :
    (mid.procs p).status = .exit := by
  apply pass.exited_of_absent settled noEntries forked
  · rw [pass.idle isIdle]
    exact List.not_mem_nil
  · rw [isIdle]
    simp

/-- Where the processor idles everybody who has been forked is finished. -/
theorem PassOf.finished_of_idle (pass : PassOf script sched k s mid)
    (serves : Serves script guard sched)
    (noEntries : ∀ p, entries script p = [])
    (reached : doSimulation script sched k = .ok (.again s))
    (isIdle : mid.current = none) {p : Fin script.length}
    (forked : p ∉ mid.forkqueue) :
    ran (chosenAt script sched) p k = lifespanOf script p := by
  apply pass.finished_of_absent serves noEntries reached forked
  · rw [pass.idle isIdle]
    exact List.not_mem_nil
  · rw [isIdle]
    simp

/-- Every pass is reached, unless the loop was left with everybody finished. -/
theorem Serves.timeline (serves : Serves script guard sched)
    (noEntries : ∀ p, entries script p = []) (k : Nat) :
    (∃ s, doSimulation script sched k = .ok (.again s)) ∨
      (∃ last, doSimulation script sched k = .ok (.leave last)) ∧
        ∀ p, ran (chosenAt script sched) p k = lifespanOf script p := by
  induction k with
  | zero => exact Or.inl ⟨load script, rfl⟩
  | succ k inductionHypothesis =>
      rcases inductionHypothesis with ⟨s, reached⟩ | ⟨⟨last, left⟩, all⟩
      · obtain ⟨mid, pass⟩ := serves.pass reached
        rcases pass.ends with ⟨⟨isIdle, _, forkedAll⟩, left⟩ | ⟨_, s', _, next⟩
        · refine Or.inr ⟨⟨mid, left⟩, fun p => ?_⟩
          have forked : p ∉ mid.forkqueue := by
            rw [forkedAll]
            exact List.not_mem_nil
          rw [ran_succ, chosenAt_of_dispatched reached pass.dispatchedEq, isIdle,
            pass.finished_of_idle serves noEntries reached isIdle forked]
          simp
        · exact Or.inl ⟨s', next⟩
      · refine Or.inr ⟨⟨last, iterate_succ_of_leave left⟩, fun p => ?_⟩
        rw [ran_succ, all]
        simp [chosenAt, left]

/-- On jobs, the run of a policy is a work-conserving schedule. -/
theorem Serves.workConserving (serves : Serves script guard sched)
    (noEntries : ∀ p, entries script p = []) :
    WorkConserving (startOf script) (lifespanOf script)
      (chosenAt script sched) where
  arrived := by
    intro k p chosen
    obtain ⟨s, mid, reached, pass, isCurrent⟩ := pass_of_chosenAt serves chosen
    have loose := pass.prepared.dispatched.linked.detached_of_run isCurrent
    have forked := loose.1
    rw [(serves.timed reached).awaited_dispatch pass.dispatching] at forked
    exact Nat.not_lt.mp forked
  unfinished := by
    intro k p chosen
    obtain ⟨s, mid, reached, pass, isCurrent⟩ := pass_of_chosenAt serves chosen
    have timed := serves.timed reached
    have alive := (pass.prepared.fit p isCurrent).1
    have same := SameScript.dispatched serves.contract timed.settled.sound
      (serves.guard_of_reached reached) pass.dispatchedEq
    unfold unfinished at alive
    rw [(pass.dispatching.entries p).age, same.lifespan, timed.lifespan,
      serves.ages noEntries reached] at alive
    exact alive
  idle := by
    intro k isIdle p arrived
    rcases serves.timeline noEntries k with ⟨s, reached⟩ | ⟨_, all⟩
    · obtain ⟨mid, pass⟩ := serves.pass reached
      rw [chosenAt_of_dispatched reached pass.dispatchedEq] at isIdle
      have forked : p ∉ mid.forkqueue := by
        rw [(serves.timed reached).awaited_dispatch pass.dispatching]
        exact Nat.not_lt.mpr arrived
      exact Nat.le_of_eq
        (pass.finished_of_idle serves noEntries reached isIdle forked).symm
    · exact Nat.le_of_eq (all p).symm

end Runs

/-! ### What a run prints -/

/-- The ticks at which an event was printed. -/
def printedAt (s : Sim n) (event : Event n) : List Nat :=
  (s.stderr.filter fun line => line.2 = event).map Prod.fst

section Print

variable {s s' mid : Sim n} {event : Event n}

theorem printedAt_of_append {lines : List (Nat × Event n)}
    (appended : s'.stderr = s.stderr ++ lines) :
    printedAt s' event = printedAt s event ++
      (lines.filter fun line => line.2 = event).map Prod.fst := by
  unfold printedAt
  rw [appended, List.filter_append, List.map_append]

theorem printedAt_print (s : Sim n) (printed event : Event n) :
    printedAt (s.print printed) event =
      printedAt s event ++ if printed = event then [s.ticks] else [] := by
  rw [printedAt_of_append (s := s) rfl]
  by_cases same : printed = event
  · simp [same]
  · simp [same]

theorem printedAt_forkOnSchedule (s : Sim n) (other : ∀ p, event ≠ .forked p) :
    printedAt (forkOnSchedule s) event = printedAt s event := by
  obtain ⟨lines, eq, forks⟩ := forkOnSchedule_stderr s
  rw [printedAt_of_append eq, List.filter_eq_nil_iff.mpr]
  · simp
  · intro line member
    obtain ⟨p, isFork⟩ := forks line member
    rw [isFork, decide_eq_true_eq]
    exact (other p).symm

/-- The ticks at which handling the previous process prints `event`. -/
def exitPrinted (s : Sim n) (prev : Option (Fin n)) (event : Event n) :
    List Nat :=
  match prev with
  | none => []
  | some p => if (s.procs p).age = (s.procs p).lifespan ∧ .exited p = event
      then [s.ticks] else []

/-- Handling the previous process prints its exit, if it is finished. -/
theorem Retired.printedAt {prev : Option (Fin n)} (done : Retired s prev s')
    (event : Event n) :
    OsPAs.Sched.printedAt s' event = OsPAs.Sched.printedAt s event ++
      exitPrinted s prev event := by
  cases done with
  | nobody => simp [exitPrinted]
  | @goesOn p alive =>
      have rested : OsPAs.Sched.printedAt (s.rest p) event =
          OsPAs.Sched.printedAt s event := by
        unfold Sim.rest
        split <;> rfl
      simp [exitPrinted, rested, alive]
  | @exits p finished =>
      rw [printedAt_print]
      simp only [exitPrinted, finished, true_and]
      rfl

/-- The first half of a pass prints forks, and the exit of the previous process
if it is finished. -/
theorem dispatch_printedAt {live : Prop} {guard : Sim n → Prop}
    {sched : Scheduler n} (contract : Contract live guard sched)
    (sound : Sound s) (guarded : guard (forkOnSchedule s))
    (dispatchedEq : dispatch sched s = .ok mid)
    (other : ∀ p, event ≠ .forked p) :
    printedAt mid event = printedAt s event ++
      exitPrinted s s.current event := by
  obtain ⟨next, chosen, _, choice, _, retired⟩ :=
    sound.dispatched_cases contract guarded dispatchedEq
  have forks := sound.forked
  have before : printedAt { chosen with current := next } event =
      printedAt s event := by
    have same : printedAt { chosen with current := next } event =
        printedAt (forkOnSchedule s) event := by
      unfold printedAt
      rw [← choice.stderr]
    exact same.trans (printedAt_forkOnSchedule s other)
  have same : exitPrinted { chosen with current := next } s.current event =
      exitPrinted s s.current event := by
    unfold exitPrinted
    cases s.current with
    | none => rfl
    | some p =>
        obtain ⟨k, eq⟩ := choice.procs p
        have clock : (chosen.procs p).age = (chosen.procs p).lifespan ↔
            (s.procs p).age = (s.procs p).lifespan := by
          rw [eq, forks.procs]
        have ticks : chosen.ticks = s.ticks := choice.clock.2.trans forks.ticks
        simp only [clock, ticks]
  rw [retired.printedAt, before, same]

/-- Exactly the processes that have exited are printed as exited, once. -/
def ExitsPrinted (s : Sim n) : Prop :=
  ∀ p, (printedAt s (.exited p)).length =
    if (s.procs p).status = .exit then 1 else 0

/-- The first half of a pass prints the exit it makes. -/
theorem ExitsPrinted.dispatch {live : Prop} {guard : Sim n → Prop}
    {sched : Scheduler n} (exits : ExitsPrinted s)
    (contract : Contract live guard sched) (sound : Sound s)
    (guarded : guard (forkOnSchedule s))
    (dispatchedEq : dispatch sched s = .ok mid)
    (dispatching : Dispatching s mid) : ExitsPrinted mid := by
  intro p
  rw [dispatch_printedAt contract sound guarded dispatchedEq (by simp),
    List.length_append, exits p]
  unfold exitPrinted
  simp only [dispatching.exits p]
  cases isCurrent : s.current with
  | none => simp
  | some q =>
      have present : (s.procs q).status ≠ .exit := by
        rcases sound.current q isCurrent with asleep | running
        · unfold isBlocked at asleep
          simp [asleep]
        · simp [running]
      by_cases same : q = p
      · subst same
        by_cases finished : (s.procs q).age = (s.procs q).lifespan
        · simp [present, finished]
        · simp [present, finished]
      · simp [same]

/-- The second half of a pass prints no exit, and makes none. -/
theorem ExitsPrinted.execute {all : Fin n → List ResourceSchedule}
    {sched : Scheduler n} (exits : ExitsPrinted mid)
    (prepared : Prepared all mid) (noEntries : ∀ p, all p = [])
    (executedEq : execute sched mid = .ok s') : ExitsPrinted s' := by
  intro p
  cases isCurrent : mid.current with
  | none =>
      obtain rfl := Except.ok.inj
        ((execute_of_idle sched isCurrent).symm.trans executedEq)
      have prints : printedAt (nextTick (mid.print .idle)) (.exited p) =
          printedAt mid (.exited p) ++ [] := printedAt_print mid .idle (.exited p)
      rw [prints, List.append_nil, exits p]
      rfl
  | some c =>
      obtain rfl := Except.ok.inj
        ((prepared.execute_of_noEntries noEntries isCurrent).symm.trans
          executedEq)
      have prints : printedAt (nextTick ((growOlder c (((mid.setStatus c
          .running).setToAcquire c []).print (.ran c))).setHolding c []))
            (.exited p) = printedAt mid (.exited p) ++ [] :=
        printedAt_print ((mid.setStatus c .running).setToAcquire c []) (.ran c)
          (.exited p)
      have present := (prepared.fit c isCurrent).2
      rw [prints, List.append_nil, exits p]
      change _ = if ((Sim.setHolding _ c []).procs p).status = .exit then 1
        else 0
      rw [setHolding_procs, growOlder_procs, Sim.print_procs,
        setToAcquire_procs, setStatus_procs]
      by_cases same : p = c
      · subst same
        simp [present]
      · simp [same]

end Print

section Log

variable {script : List ProcessBlock} {guard : Sim script.length → Prop}
  {sched : Scheduler script.length} {k : Nat} {s mid : Sim script.length}

/-- What has been printed at the top of pass `k`: as many run ticks of a process
as its age, the exits of those who have exited, and the ticks nobody was chosen
for. -/
structure Logged (script : List ProcessBlock) (sched : Scheduler script.length)
    (k : Nat) (s : Sim script.length) : Prop where
  ran : ∀ p, (printedAt s (.ran p)).length = (s.procs p).age
  exited : ∀ p, (printedAt s (.exited p)).length =
    if (s.procs p).status = .exit then 1 else 0
  idle : printedAt s .idle =
    ((List.range k).filter fun j => chosenAt script sched j = none).map toUInt

/-- The first half of a pass prints the exit it makes. -/
theorem Logged.dispatch (logged : Logged script sched k s)
    (serves : Serves script guard sched)
    (pass : PassOf script sched k s mid)
    (reached : doSimulation script sched k = .ok (.again s)) :
    Logged script sched k mid := by
  have sound := (serves.timed reached).settled.sound
  have prints {event : Event script.length} (other : ∀ p, event ≠ .forked p) :=
    dispatch_printedAt serves.contract sound (serves.guard_of_reached reached)
      pass.dispatchedEq other
  have exits : ExitsPrinted s := logged.exited
  refine ⟨fun p => ?_, exits.dispatch serves.contract sound
    (serves.guard_of_reached reached) pass.dispatchedEq pass.dispatching, ?_⟩
  · rw [prints (by simp), (pass.dispatching.entries p).age, ← logged.ran p]
    unfold exitPrinted
    cases s.current <;> simp
  · rw [prints (by simp), logged.idle]
    unfold exitPrinted
    cases s.current <;> simp

/-- The second half of a pass prints who runs in it, or that nobody does. -/
theorem Logged.execute (logged : Logged script sched k mid)
    (noEntries : ∀ p, entries script p = [])
    (pass : PassOf script sched k s mid)
    (reached : doSimulation script sched k = .ok (.again s))
    {s' : Sim script.length} (executedEq : execute sched mid = .ok s')
    (ticks : mid.ticks = toUInt k) : Logged script sched (k + 1) s' := by
  have ticked := pass.prepared.ticked noEntries executedEq
  have exits : ExitsPrinted mid := logged.exited
  have exits' := exits.execute pass.prepared noEntries executedEq
  have chosen := chosenAt_of_dispatched reached pass.dispatchedEq
  have idle : ((List.range (k + 1)).filter fun j =>
        chosenAt script sched j = none).map toUInt =
      printedAt mid .idle ++ if mid.current = none then [mid.ticks] else [] := by
    rw [List.range_succ, List.filter_append, List.map_append, logged.idle]
    by_cases isIdle : mid.current = none
    · simp [chosen, isIdle, ticks]
    · simp [chosen, isIdle]
  cases isCurrent : mid.current with
  | none =>
      obtain rfl := Except.ok.inj
        ((execute_of_idle sched isCurrent).symm.trans executedEq)
      have prints (event : Event script.length) :
          printedAt (nextTick (mid.print .idle)) event =
            printedAt mid event ++ if .idle = event then [mid.ticks] else [] :=
        printedAt_print mid .idle event
      refine ⟨fun p => ?_, exits', ?_⟩
      · rw [prints, ticked.ages, isCurrent, ← logged.ran p]
        simp
      · rw [prints, idle, isCurrent]
        simp
  | some c =>
      obtain rfl := Except.ok.inj
        ((pass.prepared.execute_of_noEntries noEntries isCurrent).symm.trans
          executedEq)
      have prints (event : Event script.length) :
          printedAt (nextTick ((growOlder c (((mid.setStatus c
            .running).setToAcquire c []).print (.ran c))).setHolding c []))
              event =
            printedAt mid event ++ if .ran c = event then [mid.ticks] else [] :=
        printedAt_print ((mid.setStatus c .running).setToAcquire c []) (.ran c)
          event
      refine ⟨fun p => ?_, exits', ?_⟩
      · rw [prints, ticked.ages, isCurrent, List.length_append, logged.ran p]
        by_cases same : c = p
        · simp [same]
        · simp [same]
      · rw [prints, idle, isCurrent]
        simp

theorem Serves.logged (serves : Serves script guard sched)
    (noEntries : ∀ p, entries script p = [])
    (reached : doSimulation script sched k = .ok (.again s)) :
    Logged script sched k s := by
  apply serves.invariant (Logged script sched) _ _ reached
  · exact ⟨fun _ => rfl, fun _ => rfl, rfl⟩
  · intro k s mid s' reached logged pass _ executedEq _
    have ticks : mid.ticks = toUInt k :=
      pass.dispatching.ticks.trans (serves.timed reached).ticks
    exact (logged.dispatch serves pass reached).execute noEntries pass reached
      executedEq ticks

end Log

/-! ### Any two policies -/

section Agree

variable {script : List ProcessBlock} {guard guard' : Sim script.length → Prop}
  {sched sched' : Scheduler script.length} {k k' : Nat}
  {s s' mid : Sim script.length}

/-- A run does not outlast another one on the same jobs: when the latter ends,
everybody has been forked, and the former idles too. -/
theorem Serves.ends_by (serves : Serves script guard sched)
    (serves' : Serves script guard' sched')
    (noEntries : ∀ p, entries script p = [])
    (reached : doSimulation script sched k = .ok (.again s))
    (pass : PassOf script sched k s mid) (ended : quits mid)
    (reached' : doSimulation script sched' k' = .ok (.again s')) : k' ≤ k := by
  by_contra later
  have idles : chosenAt script sched k = none :=
    (chosenAt_of_dispatched reached pass.dispatchedEq).trans ended.1
  rw [idle_agrees (serves.workConserving noEntries)
    (serves'.workConserving noEntries)] at idles
  rcases serves'.timeline noEntries k with ⟨t, reachedThen⟩ | ⟨⟨last, left⟩, _⟩
  · obtain ⟨mid', pass'⟩ := serves'.pass reachedThen
    have isIdle : mid'.current = none :=
      (chosenAt_of_dispatched reachedThen pass'.dispatchedEq).symm.trans idles
    have forkedAll : mid'.forkqueue = [] := by
      apply List.eq_nil_iff_forall_not_mem.mpr
      intro p
      rw [(serves'.timed reachedThen).awaited_dispatch pass'.dispatching,
        ← (serves.timed reached).awaited_dispatch pass.dispatching, ended.2.2]
      exact List.not_mem_nil
    rcases pass'.ends with ⟨_, left⟩ | ⟨goesOn, _⟩
    · have stays := iterate_leave_of_le left (Nat.not_le.mp later)
      unfold doSimulation at reached'
      simp [reached'] at stays
    · exact goesOn ⟨isIdle, pass'.idle isIdle, forkedAll⟩
  · have stays := iterate_leave_of_le left (Nat.le_of_lt (Nat.not_le.mp later))
    unfold doSimulation at reached'
    simp [reached'] at stays

end Agree

/-- The eight policies agree on the busy time of the machine.  On a script
without acquire lines they all end at the same tick and idle at the same ticks,
and under each of them every process exits once, at the age of its lifespan and
after as many run ticks. -/
theorem busy_time_agrees (script : List ProcessBlock)
    (jobs : JobScript script) :
    ∃ (k : Nat) (idleTicks : List Nat), ∀ policy : Policy, ∃ s s',
      doSimulation script policy.scheduler k = .ok (.again s) ∧
      doSimulation script policy.scheduler (k + 1) = .ok (.leave s') ∧
      s'.ticks = toUInt k ∧ printedAt s' .idle = idleTicks ∧
      ∀ p, (printedAt s' (.exited p)).length = 1 ∧
        (s'.procs p).age = lifespanOf script p ∧
        (printedAt s' (.ran p)).length = lifespanOf script p := by
  have noEntries := jobs.entries_eq
  have fifo := jobs.serves .fifo
  obtain ⟨k, _, first, last, firstReached, firstPass, firstEnded, _⟩ :=
    fifo.leaves
  refine ⟨k, ((List.range k).filter fun j =>
    chosenAt script Policy.fifo.scheduler j = none).map toUInt, ?_⟩
  intro policy
  have serves := jobs.serves policy
  obtain ⟨k', _, s, mid, reached, pass, ended, left⟩ := serves.leaves
  obtain rfl : k' = k := Nat.le_antisymm
    (fifo.ends_by serves noEntries firstReached firstPass firstEnded reached)
    (serves.ends_by fifo noEntries reached pass ended firstReached)
  have timed := serves.timed reached
  have logged :=
    (serves.logged noEntries reached).dispatch serves pass reached
  refine ⟨s, mid, reached, left, pass.dispatching.ticks.trans timed.ticks, ?_,
    fun p => ?_⟩
  · rw [logged.idle]
    simp only [idle_agrees (serves.workConserving noEntries)
      (fifo.workConserving noEntries)]
  · have forked : p ∉ mid.forkqueue := by
      rw [ended.2.2]
      exact List.not_mem_nil
    have exited := pass.exited_of_idle timed.settled noEntries ended.1 forked
    have finished :=
      pass.finished_of_idle serves noEntries reached ended.1 forked
    have age : (mid.procs p).age = lifespanOf script p := by
      rw [(pass.dispatching.entries p).age, serves.ages noEntries reached]
      exact finished
    refine ⟨?_, age, ?_⟩
    · rw [logged.exited, if_pos exited]
    · rw [logged.ran, age]

/-- Three processes that the policies run in different orders, with an idle
tick before the last one. -/
def jobsWithGap : List ProcessBlock :=
  [{ pid := 1, start := 0, lifespan := 4, prio := 1 },
   { pid := 2, start := 1, lifespan := 2, prio := 9 },
   { pid := 3, start := 7, lifespan := 1 }]

/-- The three processes under all eight policies. -/
theorem busy_time_agrees_jobsWithGap :
    ∃ (k : Nat) (idleTicks : List Nat), ∀ policy : Policy, ∃ s s',
      doSimulation jobsWithGap policy.scheduler k = .ok (.again s) ∧
      doSimulation jobsWithGap policy.scheduler (k + 1) = .ok (.leave s') ∧
      s'.ticks = toUInt k ∧ printedAt s' .idle = idleTicks ∧
      ∀ p, (printedAt s' (.exited p)).length = 1 ∧
        (s'.procs p).age = lifespanOf jobsWithGap p ∧
        (printedAt s' (.ran p)).length = lifespanOf jobsWithGap p :=
  busy_time_agrees jobsWithGap (by decide)

end OsPAs.Sched
