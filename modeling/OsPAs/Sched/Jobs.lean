/-
Module: OsPAs.Sched.Jobs
Purpose: Runs on scripts without acquire lines: who is in which queue in which
  pass, in which pass a process exits, and in which pass the loop is left.
Trusted boundary: none
Main exports: PlainJobs, PassOf.chosen, Serves.readyqueue_forked,
  PassOf.finished_of_absent, Serves.exitsAt_iff, Serves.leavesAt
-/
import OsPAs.Sched.BusyTime

namespace OsPAs.Sched

open Lib

/-- No acquire lines, and every lifespan at least one. -/
def PlainJobs (script : List ProcessBlock) : Prop :=
  ∀ block ∈ script, block.acquires = [] ∧ 1 ≤ block.lifespan.toNat

instance (script : List ProcessBlock) : Decidable (PlainJobs script) :=
  inferInstanceAs (Decidable (∀ _ ∈ script, _ ∧ _))

section Scripts

variable {script : List ProcessBlock}

theorem PlainJobs.wellFormed (plain : PlainJobs script) : WellFormed script := by
  intro block member
  obtain ⟨noAcquires, lives⟩ := plain block member
  refine ⟨lives, fun line lineMember => ?_⟩
  rw [noAcquires] at lineMember
  simp at lineMember

theorem PlainJobs.entries_eq (plain : PlainJobs script)
    (p : Fin script.length) : entries script p = [] := by
  unfold entries
  rw [(plain _ (List.get_mem script p)).1]
  rfl

theorem PlainJobs.positive (plain : PlainJobs script)
    (p : Fin script.length) : 0 < lifespanOf script p :=
  (plain _ (List.get_mem script p)).2

/-- The states between two ticks of every policy are settled, also of STCF with
processes out of reach of `MAX_TC`. -/
theorem PlainJobs.settled (plain : PlainJobs script) (policy : Policy) {k : Nat}
    {s : Sim script.length}
    (reached : doSimulation script policy.scheduler k = .ok (.again s)) :
    Settled (entries script) s ∧ Fitting (entries script) s ∧
      SameScript (load script) s :=
  settled_of_contract policy.contract_awake plain.wellFormed
    (fun _ settled _ _ => settled.awake_forked plain.entries_eq) reached

end Scripts

section Runs

variable {script : List ProcessBlock} {guard : Sim script.length → Prop}
  {sched : Scheduler script.length} {k : Nat} {s s' mid : Sim script.length}
  {p : Fin script.length}

/-! ### Queues -/

/-- The choice of a pass, between forking and handling the previous process. -/
theorem PassOf.chosen (pass : PassOf script sched k s mid)
    (serves : Serves script guard sched)
    (reached : doSimulation script sched k = .ok (.again s)) :
    ∃ chosen, sched.schedule (forkOnSchedule s) = .ok (mid.current, chosen) ∧
      Chosen True (forkOnSchedule s) mid.current chosen ∧
      mid.readyqueue = chosen.readyqueue := by
  obtain ⟨next, chosen, scheduled, choice, _, retired⟩ :=
    (serves.timed reached).settled.sound.dispatched_cases serves.contract
      (serves.guard_of_reached reached) pass.dispatchedEq
  obtain rfl : mid.current = next := retired.current
  exact ⟨chosen, scheduled, choice, retired.readyqueue⟩

/-- Pass `k` forks the processes with start tick `k`, in the order of the
script. -/
theorem Timed.readyqueue_forked (timed : Timed script k s) :
    (forkOnSchedule s).readyqueue = s.readyqueue ++
      s.forkqueue.filter fun p => startOf script p = k := by
  rw [timed.settled.sound.forked.readyqueue]
  congr 1
  refine List.filter_congr fun p waiting => ?_
  exact decide_eq_decide.mpr (timed.due_iff ((timed.awaited p).mp waiting))

/-- Whoever is in the ready queue before pass `k` was forked in an earlier
pass. -/
theorem Timed.started_of_ready (timed : Timed script k s)
    (isReady : p ∈ s.readyqueue) : startOf script p < k := by
  have away : p ∉ s.forkqueue := by
    intro waiting
    have once := timed.settled.sound.linked.once p
    have inReady := List.count_pos_iff.mpr isReady
    have inFork := List.count_pos_iff.mpr waiting
    unfold tally at once
    omega
  rw [timed.awaited] at away
  exact Nat.not_le.mp away

/-- So was the current process. -/
theorem Timed.started_of_current (timed : Timed script k s)
    (noEntries : ∀ p, entries script p = []) (isCurrent : s.current = some p) :
    startOf script p < k := by
  have awake := timed.settled.awake_of_noEntries noEntries p
  have loose := timed.settled.sound.linked.detached_of_run
    (runner_eq_some.mpr ⟨isCurrent, awake⟩)
  have away := loose.1
  rw [timed.awaited] at away
  exact Nat.not_le.mp away

/-- The second half of a pass leaves the ready queue alone: nobody waits for a
resource. -/
theorem PassOf.readyqueue_executed (pass : PassOf script sched k s mid)
    (serves : Serves script guard sched)
    (noEntries : ∀ p, entries script p = [])
    (reached : doSimulation script sched k = .ok (.again s))
    (executedEq : execute sched mid = .ok s') :
    s'.readyqueue = mid.readyqueue := by
  obtain ⟨woken, eq, waited⟩ :=
    (pass.prepared.dispatched.ticking serves.contract executedEq).readyqueue
  cases woken with
  | nil => rw [eq, List.append_nil]
  | cons p woken =>
      obtain ⟨r, waits⟩ := waited p List.mem_cons_self
      rw [pass.dispatching.waitqueue] at waits
      have settled := (serves.timed reached).settled
      exact absurd (settled.sound.linked.waiting p r waits)
        (settled.awake_of_noEntries noEntries p)

/-! ### Exits -/

/-- Process `p` exits at tick `k`: the first half of that pass gives it the
status `exit`. -/
def ExitsAt (script : List ProcessBlock) (sched : Scheduler script.length)
    (p : Fin script.length) (k : Nat) : Prop :=
  ∃ s mid, doSimulation script sched k = .ok (.again s) ∧
    dispatch sched s = .ok mid ∧ (s.procs p).status ≠ .exit ∧
    (mid.procs p).status = .exit

/-- The pass before one that was reached. -/
theorem Serves.before (serves : Serves script guard sched)
    (reached : doSimulation script sched (k + 1) = .ok (.again s')) :
    ∃ s mid, doSimulation script sched k = .ok (.again s) ∧
      PassOf script sched k s mid ∧ execute sched mid = .ok s' := by
  obtain ⟨s, earlier, ran⟩ := iterate_succ_again reached
  obtain ⟨mid', dispatchedEq, _, executedEq⟩ := body_again ran
  obtain ⟨mid, pass⟩ := serves.pass earlier
  obtain rfl := Except.ok.inj (dispatchedEq.symm.trans pass.dispatchedEq)
  exact ⟨s, mid', earlier, pass, executedEq⟩

/-- A finished process that has not exited yet is the current one. -/
theorem Settled.current_iff {all : Fin script.length → List ResourceSchedule}
    (settled : Settled all s)
    (finished : (s.procs p).age = (s.procs p).lifespan) :
    s.current = some p ↔ (s.procs p).status ≠ .exit := by
  constructor
  · intro isCurrent exited
    rcases settled.sound.current p isCurrent with asleep | running
    · unfold isBlocked at asleep
      simp [exited] at asleep
    · simp [exited] at running
  · intro present
    have one := settled.whole.accounted p present
    have loose : s.detached p := by
      by_contra listed
      exact Nat.ne_of_lt (settled.whole.young p listed) finished
    rw [detached_iff_tally] at loose
    rw [tally_run, loose] at one
    by_contra notCurrent
    have notRunner : runner s ≠ some p := fun isRunner =>
      notCurrent (runner_eq_some.mp isRunner).1
    simp [notRunner] at one

/-- A process exits at the tick after its last run tick. -/
theorem Serves.exitsAt_iff (serves : Serves script guard sched)
    (noEntries : ∀ p, entries script p = []) (p : Fin script.length) (k : Nat) :
    ExitsAt script sched p k ↔
      CompletesAt (lifespanOf script) (chosenAt script sched) p k := by
  constructor
  · rintro ⟨s, mid, reached, dispatchedEq, present, exited⟩
    have timed := serves.timed reached
    obtain ⟨mid', pass⟩ := serves.pass reached
    obtain rfl := Except.ok.inj (dispatchedEq.symm.trans pass.dispatchedEq)
    obtain ⟨isCurrent, finished⟩ :=
      ((pass.dispatching.exits p).mp exited).resolve_left present
    rw [serves.ages noEntries reached, timed.lifespan] at finished
    cases k with
    | zero =>
        obtain rfl : load script = s := by
          simpa [doSimulation] using reached
        simp [load] at isCurrent
    | succ t =>
        obtain ⟨before, earlier, beforeReached, beforePass, executedEq⟩ :=
          serves.before reached
        have ticked := beforePass.prepared.ticked noEntries executedEq
        refine ⟨t, rfl, ?_, finished⟩
        rw [chosenAt_of_dispatched beforeReached beforePass.dispatchedEq,
          ← ticked.current]
        exact isCurrent
  · rintro ⟨t, rfl, runs, all⟩
    obtain ⟨before, earlier, beforeReached, beforePass, isCurrent⟩ :=
      pass_of_chosenAt serves runs
    rcases beforePass.ends with ⟨ended, _⟩ | ⟨_, s, executedEq, reached⟩
    · simp [ended.1] at isCurrent
    · have timed := serves.timed reached
      obtain ⟨mid, pass⟩ := serves.pass reached
      have ticked := beforePass.prepared.ticked noEntries executedEq
      have finished : (s.procs p).age = (s.procs p).lifespan := by
        rw [serves.ages noEntries reached, timed.lifespan]
        exact all
      have stillCurrent : s.current = some p := ticked.current.trans isCurrent
      exact ⟨s, mid, reached, pass.dispatchedEq,
        (timed.settled.current_iff finished).mp stillCurrent,
        (pass.dispatching.exits p).mpr (Or.inr ⟨stillCurrent, finished⟩)⟩

/-- The loop is left in the first pass by which every process has been forked
and is finished. -/
theorem Serves.leavesAt (serves : Serves script guard sched)
    (noEntries : ∀ p, entries script p = []) {last : Nat}
    (busy : ∀ j < last, ∃ p, ran (chosenAt script sched) p j < lifespanOf script p)
    (started : ∀ p, startOf script p ≤ last)
    (finished : ∀ p, lifespanOf script p ≤ ran (chosenAt script sched) p last) :
    ∃ s mid, doSimulation script sched last = .ok (.again s) ∧
      doSimulation script sched (last + 1) = .ok (.leave mid) ∧
      mid.ticks = toUInt last := by
  have reaches : ∀ j ≤ last, ∃ s, doSimulation script sched j = .ok (.again s) := by
    intro j
    induction j with
    | zero => exact fun _ => ⟨load script, rfl⟩
    | succ j inductionHypothesis =>
        intro within
        obtain ⟨s, reached⟩ := inductionHypothesis (Nat.le_of_lt within)
        obtain ⟨mid, pass⟩ := serves.pass reached
        rcases pass.ends with ⟨⟨isIdle, _, forkedAll⟩, _⟩ | ⟨_, s', _, next⟩
        · obtain ⟨p, alive⟩ := busy j within
          have forked : p ∉ mid.forkqueue := by
            rw [forkedAll]
            exact List.not_mem_nil
          have all := pass.finished_of_idle serves noEntries reached isIdle forked
          omega
        · exact ⟨s', next⟩
  obtain ⟨s, reached⟩ := reaches last (Nat.le_refl last)
  obtain ⟨mid, pass⟩ := serves.pass reached
  have timed := serves.timed reached
  have conserving := serves.workConserving noEntries
  have isIdle : mid.current = none := by
    rw [← chosenAt_of_dispatched reached pass.dispatchedEq]
    by_contra chosen
    obtain ⟨p, runs⟩ := Option.ne_none_iff_exists'.mp chosen
    have alive := conserving.unfinished last p runs
    have all := finished p
    omega
  have forkedAll : mid.forkqueue = [] := by
    rw [List.eq_nil_iff_forall_not_mem]
    intro p waiting
    rw [timed.awaited_dispatch pass.dispatching] at waiting
    exact Nat.not_lt.mpr (started p) waiting
  have ended : quits mid := ⟨isIdle, pass.idle isIdle, forkedAll⟩
  rcases pass.ends with ⟨_, leaves⟩ | ⟨goesOn, _⟩
  · exact ⟨s, mid, reached, leaves, pass.dispatching.ticks.trans timed.ticks⟩
  · exact absurd ended goesOn

end Runs

end OsPAs.Sched
