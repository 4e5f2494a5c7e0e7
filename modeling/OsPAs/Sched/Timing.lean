/-
Module: OsPAs.Sched.Timing
Purpose: What every run on a well-formed script has in common, whatever the
  policy: which tick it is in, who has been forked by then, and what one tick
  leaves alone.
Trusted boundary: none
Main exports: startOf, lifespanOf, latestStart, Ticking, Sound.dispatch_stderr,
  Serves, Timed, Serves.pass, Serves.invariant, Serves.timed,
  Serves.never_faults
-/
import OsPAs.Sched.Bookkeeping

namespace OsPAs.Sched

open Lib

variable {n : Nat}

/-! ### Numbers in a script -/

/-- The start tick that the script gives to process `p`. -/
def startOf (script : List ProcessBlock) (p : Fin script.length) : Nat :=
  (script.get p).start.toNat

/-- The lifespan that the script gives to process `p`. -/
def lifespanOf (script : List ProcessBlock) (p : Fin script.length) : Nat :=
  (script.get p).lifespan.toNat

/-- The priority that the script gives to process `p`. -/
def priorityOf (script : List ProcessBlock) (p : Fin script.length) : Nat :=
  (script.get p).prio.toNat

/-- The latest start tick of the script. -/
def latestStart (script : List ProcessBlock) : Nat :=
  (script.map fun block => block.start.toNat).foldr max 0

theorem startOf_lt {script : List ProcessBlock} (p : Fin script.length) :
    startOf script p < 2 ^ 32 :=
  (script.get p).start.toNat_lt

theorem start_le_latestStart {script : List ProcessBlock} {block : ProcessBlock}
    (member : block ∈ script) : block.start.toNat ≤ latestStart script :=
  List.le_max_of_le (List.mem_map_of_mem member) (Nat.le_refl _)

theorem startOf_le_latestStart {script : List ProcessBlock}
    (p : Fin script.length) : startOf script p ≤ latestStart script :=
  start_le_latestStart (List.get_mem script p)

/-! ### What a tick leaves alone -/

theorem Retired.readyqueue {s s' : Sim n} {prev : Option (Fin n)}
    (done : Retired s prev s') : s'.readyqueue = s.readyqueue := by
  cases done with
  | nobody => rfl
  | exits => rfl
  | @goesOn p =>
      unfold Sim.rest
      split <;> rfl

theorem Requested.queues_granted {s s' : Sim n} {c : Fin n}
    {r : Fin nrResources} (move : Requested s c r true s') :
    s'.forkqueue = s.forkqueue ∧ s'.ticks = s.ticks ∧
      s'.readyqueue = s.readyqueue ∧ s'.waitqueue = s.waitqueue := by
  cases move with
  | granted => exact ⟨rfl, rfl, rfl, rfl⟩

theorem Requested.queues_refused {s s' : Sim n} {c : Fin n}
    {r : Fin nrResources} (move : Requested s c r false s') :
    s'.forkqueue = s.forkqueue ∧ s'.ticks = s.ticks ∧
      s'.readyqueue = s.readyqueue := by
  cases move with
  | refused => exact ⟨rfl, rfl, rfl⟩

/-- A release appends at most one process to the ready queue, a waiter. -/
theorem Released.queues {s s' : Sim n} {c : Fin n} {r : Fin nrResources}
    (move : Released s c r s') :
    s'.forkqueue = s.forkqueue ∧ s'.ticks = s.ticks ∧
      (∀ r, s'.waitqueue r ⊆ s.waitqueue r) ∧
      ∃ woken, s'.readyqueue = s.readyqueue ++ woken ∧
        ∀ p ∈ woken, p ∈ s.waitqueue r := by
  have fewer := move.waitqueue_subset
  cases move with
  | quiet => exact ⟨rfl, rfl, fewer, [], by simp [Sim.setOwner]⟩
  | @wake waiter prio owned isWaiting asleep =>
      exact ⟨rfl, rfl, fewer, [waiter], rfl, by simpa using isWaiting⟩

/-- What the second half of a pass leaves of the state it started from: nobody
leaves the ready queue, and only waiters enter it. -/
structure Ticking (s s' : Sim n) : Prop where
  current : s'.current = s.current
  forkqueue : s'.forkqueue = s.forkqueue
  ticks : s'.ticks = toUInt (s.ticks + 1)
  readyqueue : ∃ woken, s'.readyqueue = s.readyqueue ++ woken ∧
    ∀ p ∈ woken, ∃ r, p ∈ s.waitqueue r

/-- What is carried through a tick of the chosen process for `Ticking`. -/
theorem ticking_carries (sched : Scheduler n) (s : Sim n) (c : Fin n) :
    Carries sched False s c
      (fun _ _ t => t.forkqueue = s.forkqueue ∧ t.ticks = s.ticks ∧
        t.readyqueue = s.readyqueue ∧ t.waitqueue = s.waitqueue)
      (fun _ t => t.forkqueue = s.forkqueue ∧ t.ticks = s.ticks ∧
        t.readyqueue = s.readyqueue)
      (fun _ _ t => t.forkqueue = s.forkqueue ∧ t.ticks = s.ticks ∧
        (∀ r, t.waitqueue r ⊆ s.waitqueue r) ∧
        ∃ woken, t.readyqueue = s.readyqueue ++ woken ∧
          ∀ p ∈ woken, ∃ r, p ∈ s.waitqueue r) where
  start := ⟨rfl, rfl, rfl, rfl⟩
  skip := fun _ _ _ _ _ before _ => before
  grant := by
    intro _ _ _ _ _ _ _ before _ _ _ move
    obtain ⟨forkqueue, ticks, readyqueue, waitqueue⟩ := before
    obtain ⟨sameFork, sameTicks, sameReady, sameWait⟩ := move.queues_granted
    exact ⟨sameFork.trans forkqueue, sameTicks.trans ticks,
      sameReady.trans readyqueue, sameWait.trans waitqueue⟩
  refuse := by
    intro _ _ _ _ _ _ _ before _ _ _ move
    obtain ⟨forkqueue, ticks, readyqueue, _⟩ := before
    obtain ⟨sameFork, sameTicks, sameReady⟩ := move.queues_refused
    exact ⟨sameFork.trans forkqueue, sameTicks.trans ticks,
      sameReady.trans readyqueue⟩
  turn := by
    intro _ t _ before _
    obtain ⟨forkqueue, ticks, readyqueue, waitqueue⟩ := before
    refine ⟨forkqueue, ticks, fun r => ?_, [], ?_, by simp⟩
    · change t.waitqueue r ⊆ s.waitqueue r
      rw [waitqueue]
      exact List.Subset.refl _
    · exact readyqueue.trans (List.append_nil _).symm
  owns := fun _ _ _ _ _ _ _ => False.elim
  keep := fun _ _ _ _ _ inv _ => inv
  drop := by
    intro _ _ _ _ _ _ _ inv _ _ move
    obtain ⟨forkqueue, ticks, waitqueue, woken, readyqueue, waited⟩ := inv
    obtain ⟨sameFork, sameTicks, fewer, more, appended, waits⟩ := move.queues
    refine ⟨sameFork.trans forkqueue, sameTicks.trans ticks,
      fun r => List.Subset.trans (fewer r) (waitqueue r), woken ++ more, ?_, ?_⟩
    · exact appended.trans (by rw [readyqueue, List.append_assoc])
    · intro p member
      rcases List.mem_append.mp member with old | new
      · exact waited p old
      · exact ⟨_, waitqueue _ (waits p new)⟩

/-- The second half of a pass, whoever runs in it. -/
theorem Dispatched.ticking {live : Prop} {guard : Sim n → Prop}
    {sched : Scheduler n} (contract : Contract live guard sched) {s s' : Sim n}
    (dispatched : Dispatched s)
    (executedEq : OsPAs.Sched.execute sched s = .ok s') : Ticking s s' := by
  cases isCurrent : s.current with
  | none =>
      obtain rfl := Except.ok.inj
        ((execute_of_idle sched isCurrent).symm.trans executedEq)
      exact ⟨rfl, rfl, rfl, [], by simp [nextTick]⟩
  | some c =>
      obtain ⟨stay, t, ⟨rfl, refused, after⟩ | ⟨rfl, busy, inv⟩⟩ :=
        (ticking_carries sched s c).executed contract dispatched isCurrent
          executedEq
      · obtain ⟨forkqueue, ticks, readyqueue⟩ := after
        refine ⟨refused.isCurrent.trans isCurrent.symm, forkqueue, ?_, [], ?_,
          by simp⟩
        · change toUInt (t.ticks + 1) = _
          rw [ticks]
        · exact readyqueue.trans (List.append_nil _).symm
      · obtain ⟨forkqueue, ticks, _, woken, readyqueue, waited⟩ := inv
        refine ⟨busy.isCurrent.trans isCurrent.symm, forkqueue, ?_, woken,
          readyqueue, waited⟩
        change toUInt (t.ticks + 1) = _
        rw [ticks]

/-! ### What the first half of a pass prints -/

/-- `__fork_on_schedule` prints nothing but forks. -/
theorem forkOnSchedule_stderr (s : Sim n) :
    ∃ lines, (forkOnSchedule s).stderr = s.stderr ++ lines ∧
      ∀ line ∈ lines, ∃ p, line.2 = .forked p := by
  have folded (queue : List (Fin n)) (t : Sim n) :
      ∃ lines, (queue.foldl forkDue t).stderr = t.stderr ++ lines ∧
        ∀ line ∈ lines, ∃ p, line.2 = .forked p := by
    induction queue generalizing t with
    | nil => exact ⟨[], by simp, by simp⟩
    | cons p rest inductionHypothesis =>
        obtain ⟨lines, eq, forks⟩ := inductionHypothesis (forkDue t p)
        rw [List.foldl_cons, eq]
        unfold forkDue
        split
        · refine ⟨(t.ticks, .forked p) :: lines, ?_, ?_⟩
          · change (t.stderr ++ [(t.ticks, Event.forked p)]) ++ lines = _
            simp
          · intro line member
            rcases List.mem_cons.mp member with rfl | later
            · exact ⟨p, rfl⟩
            · exact forks line later
        · exact ⟨lines, rfl, forks⟩
  exact folded s.forkqueue s

theorem Chosen.stderr {live : Prop} {s s' : Sim n} {next : Option (Fin n)}
    (choice : Chosen live s next s') : s'.stderr = s.stderr := by
  cases choice <;> rfl

/-- Handling the previous process prints nothing but its exit. -/
theorem Retired.stderr {s s' : Sim n} {prev : Option (Fin n)}
    (done : Retired s prev s') :
    ∃ lines, s'.stderr = s.stderr ++ lines ∧
      ∀ line ∈ lines, ∃ p, line.2 = .exited p := by
  cases done with
  | nobody => exact ⟨[], by simp, by simp⟩
  | @goesOn p alive =>
      refine ⟨[], ?_, by simp⟩
      unfold Sim.rest
      split
      · exact (List.append_nil _).symm
      · exact (List.append_nil _).symm
  | @exits p finished =>
      refine ⟨[(s.ticks, .exited p)], rfl, fun line member => ⟨p, ?_⟩⟩
      rw [List.mem_singleton.mp member]

/-- The first half of a pass prints nothing but forks and exits. -/
theorem Sound.dispatch_stderr {live : Prop} {guard : Sim n → Prop}
    {sched : Scheduler n} (contract : Contract live guard sched)
    {s mid : Sim n} (sound : Sound s) (guarded : guard (forkOnSchedule s))
    (dispatchedEq : OsPAs.Sched.dispatch sched s = .ok mid) :
    ∃ lines, mid.stderr = s.stderr ++ lines ∧ ∀ line ∈ lines,
      ∃ p, line.2 = .forked p ∨ line.2 = .exited p := by
  obtain ⟨next, chosen, _, choice, _, retired⟩ :=
    sound.dispatched_cases contract guarded dispatchedEq
  obtain ⟨forks, forksEq, areForks⟩ := forkOnSchedule_stderr s
  obtain ⟨exits, exitsEq, areExits⟩ := retired.stderr
  refine ⟨forks ++ exits, ?_, fun line member => ?_⟩
  · rw [exitsEq, ← List.append_assoc, ← forksEq, ← choice.stderr]
  · rcases List.mem_append.mp member with isFork | isExit
    · obtain ⟨p, eq⟩ := areForks line isFork
      exact ⟨p, Or.inl eq⟩
    · obtain ⟨p, eq⟩ := areExits line isExit
      exact ⟨p, Or.inr eq⟩

/-! ### Runs -/

section Runs

variable {script : List ProcessBlock} {guard : Sim script.length → Prop}
  {sched : Scheduler script.length} {k : Nat} {s mid s' : Sim script.length}

/-- The scheduler keeps the contract along the runs on a well-formed script. -/
structure Serves (script : List ProcessBlock)
    (guard : Sim script.length → Prop) (sched : Scheduler script.length) :
    Prop where
  contract : Contract True guard sched
  wellFormed : WellFormed script
  guarded : ∀ s, Settled (entries script) s → Fitting (entries script) s →
    SameScript (load script) s → guard (forkOnSchedule s)

/-- The status-aware policies serve every well-formed script. -/
theorem Policy.serves {policy : Policy} (aware : policy ∈ statusAware)
    (wellFormed : WellFormed script) :
    Serves script (fun _ => True) policy.scheduler where
  contract := Policy.contract aware
  wellFormed := wellFormed
  guarded := fun _ _ _ _ => trivial

/-- What is known at the top of pass `k`. -/
structure Timed (script : List ProcessBlock) (k : Nat)
    (s : Sim script.length) : Prop where
  settled : Settled (entries script) s
  fitting : Fitting (entries script) s
  same : SameScript (load script) s
  awaited : ∀ p, p ∈ s.forkqueue ↔ k ≤ startOf script p
  ticks : s.ticks = toUInt k

namespace Timed

theorem lifespan (timed : Timed script k s) (p : Fin script.length) :
    (s.procs p).lifespan = lifespanOf script p :=
  timed.same.lifespan p

/-- A process is forked in the pass whose number is its start tick. -/
theorem due_iff (timed : Timed script k s) {p : Fin script.length}
    (waiting : k ≤ startOf script p) : due s p ↔ startOf script p = k := by
  have small := startOf_lt p
  have starts : (s.procs p).startsAt = startOf script p :=
    timed.same.startsAt p
  unfold due
  rw [starts, timed.ticks, toUInt_of_lt (by omega)]
  omega

/-- The processes not forked in pass `k` either are those whose start tick is
ahead. -/
theorem awaited_dispatch (timed : Timed script k s)
    (dispatching : Dispatching s mid) (p : Fin script.length) :
    p ∈ mid.forkqueue ↔ k < startOf script p := by
  rw [dispatching.forkqueue, List.mem_filter, timed.awaited, decide_eq_true_eq]
  constructor
  · rintro ⟨waiting, notDue⟩
    rw [timed.due_iff waiting] at notDue
    omega
  · intro ahead
    refine ⟨Nat.le_of_lt ahead, ?_⟩
    rw [timed.due_iff (Nat.le_of_lt ahead)]
    omega

end Timed

/-- The two halves of pass `k`, and how it ends. -/
structure PassOf (script : List ProcessBlock) (sched : Scheduler script.length)
    (k : Nat) (s mid : Sim script.length) : Prop where
  dispatchedEq : dispatch sched s = .ok mid
  dispatching : Dispatching s mid
  prepared : Prepared (entries script) mid
  fitting : Fitting (entries script) mid
  idle : mid.current = none → mid.readyqueue = []
  ends : quits mid ∧ doSimulation script sched (k + 1) = .ok (.leave mid) ∨
    ¬ quits mid ∧ ∃ s', execute sched mid = .ok s' ∧
      doSimulation script sched (k + 1) = .ok (.again s')

namespace Serves

theorem settled (serves : Serves script guard sched)
    (reached : doSimulation script sched k = .ok (.again s)) :
    Settled (entries script) s ∧ Fitting (entries script) s ∧
      SameScript (load script) s :=
  settled_of_contract serves.contract serves.wellFormed serves.guarded reached

/-- The guard of the contract holds in every state that is reached. -/
theorem guard_of_reached (serves : Serves script guard sched)
    (reached : doSimulation script sched k = .ok (.again s)) :
    guard (forkOnSchedule s) := by
  obtain ⟨settled, fitting, same⟩ := serves.settled reached
  exact serves.guarded s settled fitting same

/-- A pass that was reached goes through. -/
theorem pass (serves : Serves script guard sched)
    (reached : doSimulation script sched k = .ok (.again s)) :
    ∃ mid, PassOf script sched k s mid := by
  obtain ⟨settled, fitting, _⟩ := serves.settled reached
  have guardedNow := serves.guard_of_reached reached
  obtain ⟨mid, dispatchedEq, dispatching, prepared, fittingMid, s', executedEq,
    _⟩ := settled.body serves.contract fitting guardedNow
  refine ⟨mid, dispatchedEq, dispatching, prepared, fittingMid, ?_, ?_⟩
  · intro isIdle
    obtain ⟨next, chosen, _, choice, _, retired⟩ :=
      settled.sound.dispatched_cases serves.contract guardedNow dispatchedEq
    obtain rfl : next = none := retired.current.symm.trans isIdle
    rw [retired.readyqueue]
    cases choice with
    | idle nobody => exact nobody trivial
  · unfold doSimulation at reached ⊢
    by_cases ended : quits mid
    · refine Or.inl ⟨ended, ?_⟩
      rw [iterate_succ_of_again reached]
      exact body_of_quits dispatchedEq ended
    · refine Or.inr ⟨ended, s', executedEq, ?_⟩
      rw [iterate_succ_of_again reached]
      exact body_of_executed dispatchedEq ended executedEq

/-- Nothing stops a run. -/
theorem never_faults (serves : Serves script guard sched) (k : Nat)
    (fault : Fault) : doSimulation script sched k ≠ .error fault :=
  never_faults_of_contract serves.contract serves.wellFormed serves.guarded k
    fault

end Serves

/-- The state at the top of the next pass. -/
theorem Timed.next (serves : Serves script guard sched)
    (timed : Timed script k s) (pass : PassOf script sched k s mid)
    (executedEq : execute sched mid = .ok s')
    (reached : doSimulation script sched (k + 1) = .ok (.again s')) :
    Timed script (k + 1) s' := by
  obtain ⟨settled, fitting, same⟩ := serves.settled reached
  have ticking := pass.prepared.dispatched.ticking serves.contract executedEq
  refine ⟨settled, fitting, same, fun p => ?_, ?_⟩
  · rw [ticking.forkqueue]
    exact timed.awaited_dispatch pass.dispatching p
  · rw [ticking.ticks, pass.dispatching.ticks, timed.ticks]
    exact Nat.mod_add_mod k (2 ^ 32) 1

/-- Run rule: what holds at the top of pass `0` and is carried by the two halves
of a pass that does not quit holds at the top of every pass. -/
theorem Serves.invariant (serves : Serves script guard sched)
    (Inv : Nat → Sim script.length → Prop) (initially : Inv 0 (load script))
    (carried : ∀ k s mid s', doSimulation script sched k = .ok (.again s) →
      Inv k s → PassOf script sched k s mid → ¬ quits mid →
      execute sched mid = .ok s' →
      doSimulation script sched (k + 1) = .ok (.again s') → Inv (k + 1) s')
    (reached : doSimulation script sched k = .ok (.again s)) : Inv k s := by
  apply iterate_invariant Inv initially _ reached
  intro k s s' reached holds ran
  obtain ⟨mid, pass⟩ := serves.pass reached
  have next : doSimulation script sched (k + 1) = .ok (.again s') :=
    (iterate_succ_of_again reached).trans ran
  rcases pass.ends with ⟨_, ended⟩ | ⟨goesOn, s'', executedEq, ended⟩
  · simp [next] at ended
  · obtain rfl := Pass.again.inj (Except.ok.inj (ended.symm.trans next))
    exact carried k s mid s'' reached holds pass goesOn executedEq next

/-- The state at the top of pass `k` is timed. -/
theorem Serves.timed (serves : Serves script guard sched)
    (reached : doSimulation script sched k = .ok (.again s)) :
    Timed script k s := by
  apply serves.invariant (Timed script) _ _ reached
  · exact
      { settled := load_settled serves.wellFormed
        fitting := load_fitting serves.wellFormed
        same := .refl _
        awaited := by simp [load]
        ticks := rfl }
  · intro k s mid s' _ timed pass _ executedEq next
    exact timed.next serves pass executedEq next

end Runs

end OsPAs.Sched
