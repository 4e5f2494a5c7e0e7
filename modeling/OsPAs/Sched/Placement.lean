/-
Module: OsPAs.Sched.Placement
Purpose: Where a process can be.  The list discipline `Linked` (a process is in
  at most one place, with the status that goes with it) through every phase of
  the main loop, and through whole runs of every policy under the contract.
Trusted boundary: none
Main exports: tally, Linked, runner, Linked.chosen, Linked.retired,
  Linked.granted, Linked.refused, Linked.released
-/
import OsPAs.Lib.Queues
import OsPAs.Sched.Phases

namespace OsPAs.Sched

open Lib

variable {n : Nat}

/-! ### Counting places -/

/-- Number of places `p` is found in, with `run` the process the processor is
given to: `__forkqueue`, `readyqueue`, the waitqueues, the processor. -/
def tally (s : Sim n) (run : Option (Fin n)) (p : Fin n) : Nat :=
  s.forkqueue.count p + s.readyqueue.count p + occurrences s.waitqueue p +
    if run = some p then 1 else 0

theorem detached_iff_tally {s : Sim n} {p : Fin n} :
    s.detached p ↔ tally s none p = 0 := by
  simp [Sim.detached, tally, occurrences_eq_zero, List.count_eq_zero,
    and_assoc]

theorem tally_run (s : Sim n) (run : Option (Fin n)) (p : Fin n) :
    tally s run p = tally s none p + if run = some p then 1 else 0 := by
  simp [tally]

theorem tally_withPrio (s : Sim n) (prio : Fin n → Nat)
    (run : Option (Fin n)) (p : Fin n) :
    tally (s.withPrio prio) run p = tally s run p := rfl

theorem tally_sleep (s : Sim n) (r : Fin nrResources) (c p : Fin n) :
    tally (s.sleep r c) none p = tally s none p + if p = c then 1 else 0 := by
  have appended := occurrences_append s.waitqueue r c p
  simp only [tally, Sim.sleep, Sim.setStatus, Sim.modify, appended]
  simp only [reduceCtorEq, if_false]
  omega

theorem tally_wake {s : Sim n} {r : Fin nrResources} {w : Fin n}
    (isWaiting : w ∈ s.waitqueue r) (p : Fin n) :
    tally (s.wake r w) none p = tally s none p := by
  have erased := occurrences_erase s.waitqueue r isWaiting p
  have counted : (s.readyqueue ++ [w]).count p =
      s.readyqueue.count p + if p = w then 1 else 0 := by
    rw [List.count_append, List.count_singleton]
    by_cases same : p = w
    · subst same; simp
    · simp [same, Ne.symm same]
  simp only [tally, Sim.wake, Sim.delInitWait, Sim.setStatus, Sim.modify,
    counted, reduceCtorEq, if_false]
  omega

theorem tally_delInitReady {s : Sim n} {next : Fin n}
    (isReady : next ∈ s.readyqueue) (p : Fin n) :
    tally (s.delInitReady next) none p + (if p = next then 1 else 0) =
      tally s none p := by
  have positive := List.count_pos_iff.mpr isReady
  have counted : (s.readyqueue.erase next).count p +
      (if p = next then 1 else 0) = s.readyqueue.count p := by
    by_cases same : p = next
    · subst same
      rw [List.count_erase_self, if_pos rfl]
      omega
    · rw [List.count_erase_of_ne same, if_neg same]
      omega
  simp only [tally, Sim.delInitReady, reduceCtorEq, if_false]
  omega

theorem tally_requeue (s : Sim n) (c p : Fin n) :
    tally { s with readyqueue := s.readyqueue ++ [c] } none p =
      tally s none p + if p = c then 1 else 0 := by
  have counted : (s.readyqueue ++ [c]).count p =
      s.readyqueue.count p + if p = c then 1 else 0 := by
    rw [List.count_append, List.count_singleton]
    by_cases same : p = c
    · subst same; simp
    · simp [same, Ne.symm same]
  simp only [tally, counted, reduceCtorEq, if_false]
  omega

theorem count_filter_add (queue : List (Fin n)) (keep : Fin n → Prop)
    [DecidablePred keep] (p : Fin n) :
    (queue.filter fun q => ¬ keep q).count p +
      (queue.filter fun q => keep q).count p = queue.count p := by
  induction queue with
  | nil => simp
  | cons q queue inductionHypothesis =>
      by_cases kept : keep q
      · simp only [List.filter_cons, kept, not_true_eq_false, decide_false,
          decide_true, if_true, List.count_cons]
        simp only [Bool.false_eq_true, if_false]
        omega
      · simp only [List.filter_cons, kept, not_false_eq_true, decide_true,
          decide_false, if_true, List.count_cons]
        simp only [Bool.false_eq_true, if_false]
        omega

theorem tally_forked {s s' : Sim n} (forked : Forked s s' [] s.forkqueue)
    (p : Fin n) : tally s' none p = tally s none p := by
  have counted := count_filter_add s.forkqueue (due s) p
  simp only [tally, forked.forkqueue, forked.readyqueue, forked.waitqueue,
    List.count_append, List.nil_append, reduceCtorEq, if_false]
  omega

/-! ### The list discipline -/

/-- `run` is the process the processor is given to.  Every process is in at
most one place, waiting processes and only they are blocked, and the processes
in the other lists are not. -/
structure Linked (s : Sim n) (run : Option (Fin n)) : Prop where
  once : ∀ p, tally s run p ≤ 1
  forking : ∀ p ∈ s.forkqueue, (s.procs p).status = .ready
  queued : ∀ p ∈ s.readyqueue,
    (s.procs p).status = .ready ∨ (s.procs p).status = .running
  waiting : ∀ p r, p ∈ s.waitqueue r → isBlocked s p
  blocked : ∀ p, isBlocked s p → ∃ r, p ∈ s.waitqueue r
  runs : ∀ p, run = some p → ¬ isBlocked s p

/-- The current process, if it is not blocked. -/
def runner (s : Sim n) : Option (Fin n) :=
  s.current.filter fun c => ¬ isBlocked s c

theorem runner_eq_some {s : Sim n} {c : Fin n} :
    runner s = some c ↔ s.current = some c ∧ ¬ isBlocked s c := by
  simp [runner, Option.filter_eq_some_iff]

namespace Linked

variable {s s' : Sim n} {run : Option (Fin n)} {p c : Fin n}

/-- `Linked` reads the lists and the statuses only. -/
theorem congr (linked : Linked s run)
    (forkqueue : s'.forkqueue = s.forkqueue)
    (readyqueue : s'.readyqueue = s.readyqueue)
    (waitqueue : s'.waitqueue = s.waitqueue)
    (status : ∀ p, (s'.procs p).status = (s.procs p).status) :
    Linked s' run where
  once := fun p => by
    simpa only [tally, forkqueue, readyqueue, waitqueue] using linked.once p
  forking := fun p member => by
    rw [status]; exact linked.forking p (forkqueue ▸ member)
  queued := fun p member => by
    rw [status]; exact linked.queued p (readyqueue ▸ member)
  waiting := fun p r member => by
    unfold isBlocked; rw [status]; exact linked.waiting p r (waitqueue ▸ member)
  blocked := fun p asleep => by
    unfold isBlocked at asleep
    rw [status] at asleep
    rw [waitqueue]
    exact linked.blocked p asleep
  runs := fun p isRun => by
    unfold isBlocked; rw [status]; exact linked.runs p isRun

theorem withPrio (linked : Linked s run) (prio : Fin n → Nat) :
    Linked (s.withPrio prio) run :=
  linked.congr rfl rfl rfl fun _ => rfl

theorem setOwner (linked : Linked s run) (r : Fin nrResources)
    (owner : Option (Fin n)) : Linked (s.setOwner r owner) run :=
  linked.congr rfl rfl rfl fun _ => rfl

theorem print (linked : Linked s run) (event : Event n) :
    Linked (s.print event) run :=
  linked.congr rfl rfl rfl fun _ => rfl

theorem nextTick (linked : Linked s run) : Linked (nextTick s) run :=
  linked.congr rfl rfl rfl fun _ => rfl

theorem modify (linked : Linked s run) {change : Process → Process}
    (keeps : ∀ process, (change process).status = process.status) :
    Linked (s.modify p change) run := by
  refine linked.congr rfl rfl rfl fun q => ?_
  rw [Sim.modify_procs]
  split
  · subst q; exact keeps _
  · rfl

/-- The process the processor is given to is in no list. -/
theorem detached_of_run (linked : Linked s run) (isRun : run = some p) :
    s.detached p := by
  have bound := linked.once p
  rw [tally_run, if_pos isRun] at bound
  exact detached_iff_tally.mpr (by omega)

/-- Taking the processor away from its process. -/
theorem drop (linked : Linked s run) : Linked s none where
  once := fun p => by
    have bound := linked.once p
    rw [tally_run] at bound
    omega
  forking := linked.forking
  queued := linked.queued
  waiting := linked.waiting
  blocked := linked.blocked
  runs := by simp

theorem nodup_forkqueue (linked : Linked s run) : s.forkqueue.Nodup :=
  List.nodup_iff_count_le_one.mpr fun p => by
    have bound := linked.once p
    unfold tally at bound
    omega

theorem nodup_readyqueue (linked : Linked s run) : s.readyqueue.Nodup :=
  List.nodup_iff_count_le_one.mpr fun p => by
    have bound := linked.once p
    unfold tally at bound
    omega

theorem nodup_waitqueue (linked : Linked s run) (r : Fin nrResources) :
    (s.waitqueue r).Nodup :=
  List.nodup_iff_count_le_one.mpr fun p => by
    have bound := linked.once p
    have counted := count_le_occurrences s.waitqueue r p
    unfold tally at bound
    omega

/-- A waiter taken out of its waitqueue is in no list. -/
theorem waitersLoose (linked : Linked s run) (r : Fin nrResources) :
    WaitersLoose s r := by
  intro w isWaiting
  have bound := linked.once w
  rw [tally_run] at bound
  have erased := occurrences_erase s.waitqueue r isWaiting w
  rw [if_pos rfl] at erased
  refine detached_iff_tally.mpr ?_
  unfold tally at bound ⊢
  simp only [Sim.delInitWait, reduceCtorEq, if_false] at bound ⊢
  omega

/-! ### Moves -/

theorem forked (linked : Linked s run)
    (moved : Forked s s' [] s.forkqueue) : Linked s' run where
  once := fun p => by
    rw [tally_run, tally_forked moved, ← tally_run]
    exact linked.once p
  forking := fun p member => by
    rw [moved.procs]
    rw [moved.forkqueue] at member
    exact linked.forking p (List.mem_of_mem_filter member)
  queued := fun p member => by
    rw [moved.procs]
    rw [moved.readyqueue] at member
    rcases List.mem_append.mp member with old | new
    · exact linked.queued p old
    · exact Or.inl (linked.forking p (List.mem_of_mem_filter new))
  waiting := fun p r member => by
    unfold isBlocked
    rw [moved.procs]
    exact linked.waiting p r (moved.waitqueue ▸ member)
  blocked := fun p asleep => by
    unfold isBlocked at asleep
    rw [moved.procs] at asleep
    rw [moved.waitqueue]
    exact linked.blocked p asleep
  runs := fun p isRun => by
    unfold isBlocked
    rw [moved.procs]
    exact linked.runs p isRun

theorem dequeue {next : Fin n} (linked : Linked s none)
    (isReady : next ∈ s.readyqueue) :
    Linked (s.delInitReady next) (some next) where
  once := fun p => by
    have bound := linked.once p
    have erased := tally_delInitReady isReady p
    rw [tally_run]
    simp only [Option.some.injEq, eq_comm (a := next)]
    omega
  forking := linked.forking
  queued := fun p member =>
    linked.queued p (List.mem_of_mem_erase member)
  waiting := linked.waiting
  blocked := linked.blocked
  runs := fun p isNext asleep => by
    obtain rfl : next = p := Option.some.inj isNext
    have status := linked.queued next isReady
    unfold isBlocked at asleep
    change (s.procs next).status = .blocked at asleep
    rw [asleep] at status
    simp at status

theorem requeue (linked : Linked s (some c))
    (status : (s.procs c).status = .ready ∨ (s.procs c).status = .running) :
    Linked { s with readyqueue := s.readyqueue ++ [c] } none where
  once := fun p => by
    have bound := linked.once p
    rw [tally_run] at bound
    rw [tally_requeue]
    simp only [Option.some.injEq, eq_comm (a := c)] at bound
    exact bound
  forking := linked.forking
  queued := fun p member => by
    rcases List.mem_append.mp member with old | new
    · exact linked.queued p old
    · obtain rfl : p = c := by simpa using new
      exact status
  waiting := linked.waiting
  blocked := linked.blocked
  runs := by simp

/-- What `schedule` chooses is linked again, with the processor given to the
process it returns. -/
theorem chosen {live : Prop} {next : Option (Fin n)}
    (linked : Linked s (runner s))
    (status : ∀ c, s.current = some c → ¬ isBlocked s c →
      (s.procs c).status = .ready ∨ (s.procs c).status = .running)
    (choice : Chosen live s next s') : Linked s' next := by
  cases choice with
  | keep prio isCurrent awake =>
      have isRunner := runner_eq_some.mpr ⟨isCurrent, awake⟩
      rw [isRunner] at linked
      exact linked.withPrio prio
  | idle => exact linked.drop
  | pick prio isReady =>
      exact (linked.drop.withPrio prio).dequeue isReady
  | @preempt c next prio isReady isCurrent awake =>
      have isRunner := runner_eq_some.mpr ⟨isCurrent, awake⟩
      rw [isRunner] at linked
      have requeued := (linked.requeue (status c isCurrent awake)).withPrio prio
      exact requeued.dequeue (List.mem_append_left [c] isReady)

theorem setStatus_of_detached (linked : Linked s run)
    {status : ProcessStatus} (loose : s.detached p)
    (notBlocked : status ≠ .blocked) :
    Linked (s.setStatus p status) run := by
  have awake : ¬ isBlocked s p := by
    intro asleep
    obtain ⟨r, member⟩ := linked.blocked p asleep
    exact loose.2.2 r member
  have statusOf (q : Fin n) : ((s.setStatus p status).procs q).status =
      if q = p then status else (s.procs q).status := by
    rw [Sim.setStatus, Sim.modify_procs]
    split <;> rfl
  have blockedIff (q : Fin n) :
      isBlocked (s.setStatus p status) q ↔ isBlocked s q := by
    unfold isBlocked
    rw [statusOf]
    by_cases same : q = p
    · subst same
      rw [if_pos rfl]
      exact ⟨fun now => absurd now notBlocked, fun was => absurd was awake⟩
    · rw [if_neg same]
  refine
    { once := linked.once
      forking := fun q member => ?_
      queued := fun q member => ?_
      waiting := fun q r member => (blockedIff q).mpr (linked.waiting q r member)
      blocked := fun q asleep => linked.blocked q ((blockedIff q).mp asleep)
      runs := fun q isRun => (blockedIff q).not.mpr (linked.runs q isRun) }
  · have other : q ≠ p := fun same => loose.1 (same ▸ member)
    rw [statusOf, if_neg other]
    exact linked.forking q member
  · have other : q ≠ p := fun same => loose.2.1 (same ▸ member)
    rw [statusOf, if_neg other]
    exact linked.queued q member

theorem rest (linked : Linked s run) : Linked (s.rest p) run := by
  unfold Sim.rest
  split
  · rename_i ran
    have statusOf (q : Fin n) : ((s.setStatus p .ready).procs q).status =
        if q = p then .ready else (s.procs q).status := by
      rw [Sim.setStatus, Sim.modify_procs]
      split <;> rfl
    have blockedIff (q : Fin n) :
        isBlocked (s.setStatus p .ready) q ↔ isBlocked s q := by
      unfold isBlocked
      rw [statusOf]
      by_cases same : q = p
      · subst same; simp [ran]
      · rw [if_neg same]
    refine
      { once := linked.once
        forking := fun q member => ?_
        queued := fun q member => ?_
        waiting := fun q r member =>
          (blockedIff q).mpr (linked.waiting q r member)
        blocked := fun q asleep => linked.blocked q ((blockedIff q).mp asleep)
        runs := fun q isRun => (blockedIff q).not.mpr (linked.runs q isRun) }
    · rw [statusOf]
      split
      · rfl
      · exact linked.forking q member
    · rw [statusOf]
      split
      · exact Or.inl rfl
      · exact linked.queued q member
  · exact linked

/-- Handling the previous process keeps the lists linked. -/
theorem retired {prev : Option (Fin n)} (linked : Linked s run)
    (done : Retired s prev s') : Linked s' run := by
  cases done with
  | nobody => exact linked
  | goesOn => exact linked.rest
  | exits finished loose =>
      exact (linked.setStatus_of_detached loose (by simp)).print _

theorem sleep (linked : Linked s (some c)) (r : Fin nrResources) :
    Linked (s.sleep r c) none := by
  have loose := linked.detached_of_run rfl
  have statusOf (q : Fin n) : ((s.sleep r c).procs q).status =
      if q = c then .blocked else (s.procs q).status := by
    change ((s.setStatus c .blocked).procs q).status = _
    rw [Sim.setStatus, Sim.modify_procs]
    split <;> rfl
  have memberIff (q : Fin n) (i : Fin nrResources) :
      q ∈ (s.sleep r c).waitqueue i ↔
        q ∈ s.waitqueue i ∨ (i = r ∧ q = c) := by
    simp only [Sim.sleep, Function.update_apply]
    by_cases same : i = r
    · subst same; simp
    · simp [same]
  refine
    { once := fun q => ?_
      forking := fun q member => ?_
      queued := fun q member => ?_
      waiting := fun q i member => ?_
      blocked := fun q asleep => ?_
      runs := by simp }
  · have bound := linked.once q
    rw [tally_run] at bound
    rw [tally_sleep]
    simp only [Option.some.injEq, eq_comm (a := c)] at bound
    exact bound
  · have other : q ≠ c := fun same => loose.1 (same ▸ member)
    rw [statusOf, if_neg other]
    exact linked.forking q member
  · have other : q ≠ c := fun same => loose.2.1 (same ▸ member)
    rw [statusOf, if_neg other]
    exact linked.queued q member
  · unfold isBlocked
    rw [statusOf]
    split
    · rfl
    · rename_i other
      rcases (memberIff q i).mp member with old | ⟨_, same⟩
      · exact linked.waiting q i old
      · exact absurd same other
  · unfold isBlocked at asleep
    rw [statusOf] at asleep
    by_cases same : q = c
    · exact ⟨r, (memberIff q r).mpr (Or.inr ⟨rfl, same⟩)⟩
    · rw [if_neg same] at asleep
      obtain ⟨i, member⟩ := linked.blocked q asleep
      exact ⟨i, (memberIff q i).mpr (Or.inl member)⟩

theorem wake {r : Fin nrResources} {w : Fin n} (linked : Linked s run)
    (isWaiting : w ∈ s.waitqueue r) : Linked (s.wake r w) run := by
  have loose := linked.waitersLoose r w isWaiting
  have statusOf (q : Fin n) : ((s.wake r w).procs q).status =
      if q = w then .ready else (s.procs q).status := by
    change (((s.delInitWait r w).setStatus w .ready).procs q).status = _
    rw [Sim.setStatus, Sim.modify_procs]
    split <;> rfl
  refine
    { once := fun q => ?_
      forking := fun q member => ?_
      queued := fun q member => ?_
      waiting := fun q i member => ?_
      blocked := fun q asleep => ?_
      runs := fun q isRun => ?_ }
  · rw [tally_run, tally_wake isWaiting, ← tally_run]
    exact linked.once q
  · have other : q ≠ w := fun same => loose.1 (same ▸ member)
    rw [statusOf, if_neg other]
    exact linked.forking q member
  · rw [statusOf]
    split
    · exact Or.inl rfl
    · rename_i other
      rcases List.mem_append.mp member with old | new
      · exact linked.queued q old
      · exact absurd (by simpa using new) other
  · have other : q ≠ w := fun same => loose.2.2 i (same ▸ member)
    unfold isBlocked
    rw [statusOf, if_neg other]
    refine linked.waiting q i ?_
    change q ∈ Function.update s.waitqueue r ((s.waitqueue r).erase w) i at member
    by_cases same : i = r
    · subst same
      rw [Function.update_self] at member
      exact List.mem_of_mem_erase member
    · rwa [Function.update_of_ne same] at member
  · unfold isBlocked at asleep
    rw [statusOf] at asleep
    by_cases same : q = w
    · rw [if_pos same] at asleep
      simp at asleep
    · rw [if_neg same] at asleep
      obtain ⟨i, member⟩ := linked.blocked q asleep
      refine ⟨i, ?_⟩
      change q ∈ Function.update s.waitqueue r ((s.waitqueue r).erase w) i
      by_cases sameQueue : i = r
      · subst sameQueue
        rw [Function.update_self]
        exact (List.mem_erase_of_ne same).mpr member
      · rwa [Function.update_of_ne sameQueue]
  · unfold isBlocked
    rw [statusOf]
    split
    · simp
    · exact linked.runs q isRun

theorem released {r : Fin nrResources} (linked : Linked s run)
    (move : Released s c r s') : Linked s' run := by
  cases move with
  | quiet prio => exact (linked.setOwner r none).withPrio prio
  | wake prio owned isWaiting =>
      exact ((linked.setOwner r none).wake isWaiting).withPrio prio

theorem granted {r : Fin nrResources} (linked : Linked s run)
    (move : Requested s c r true s') : Linked s' run := by
  cases move with
  | granted prio => exact (linked.setOwner r (some c)).withPrio prio

theorem refused {r : Fin nrResources} (linked : Linked s (some c))
    (move : Requested s c r false s') : Linked s' none := by
  cases move with
  | refused prio => exact (linked.sleep r).withPrio prio

end Linked

end OsPAs.Sched
