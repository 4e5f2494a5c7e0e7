/-
Module: OsPAs.Sched.Priorities
Purpose: What the callbacks of the priority policies do to the effective
  priorities, which the contract leaves open.
Trusted boundary: none
Main exports: Steady.priorities, acquireWith_granted, acquireWith_refused,
  releaseWith_prio, prioSchedule_prio, dispatch_samePriorities
-/
import OsPAs.Sched.Bookkeeping

namespace OsPAs.Sched

open Lib

variable {n : Nat}

/-- The two states agree on who owns and awaits what, and on all priorities. -/
structure SamePriorities (s s' : Sim n) : Prop where
  owner : s'.owner = s.owner
  waitqueue : s'.waitqueue = s.waitqueue
  prio : ∀ p, (s'.procs p).prio = (s.procs p).prio
  prioOrig : ∀ p, (s'.procs p).prioOrig = (s.procs p).prioOrig

namespace SamePriorities

variable {s s' s'' : Sim n}

theorem trans (first : SamePriorities s s') (second : SamePriorities s' s'') :
    SamePriorities s s'' :=
  ⟨second.owner.trans first.owner, second.waitqueue.trans first.waitqueue,
    fun p => (second.prio p).trans (first.prio p),
    fun p => (second.prioOrig p).trans (first.prioOrig p)⟩

end SamePriorities

theorem Steady.priorities {s s' : Sim n} (steady : Steady s s') : SamePriorities s s' :=
  ⟨steady.owner, steady.waitqueue, steady.prio, steady.prioOrig⟩

/-! ### Resource callbacks -/

section Callbacks

variable {onGrant onRelease : Fin n → Sim n → Sim n}
  {onWait : Fin n → Fin n → Sim n → Sim n}
  {choose : Sim n → Fin n → List (Fin n) → Fin n} {s s' : Sim n} {c : Fin n}
  {resourceId : Nat}

/-- A granted request ends with the policy's own bookkeeping. -/
theorem acquireWith_granted
    (acquired : acquireWith onGrant onWait c resourceId s = .ok (true, s')) :
    ∃ r : Fin nrResources, r.val = resourceId ∧
      s' = onGrant c (s.setOwner r (some c)) := by
  by_cases inside : resourceId < nrResources
  · refine ⟨⟨resourceId, inside⟩, rfl, ?_⟩
    simp only [acquireWith, resource_of_lt inside, bind, Except.bind] at acquired
    split at acquired
    · simpa [pure, Except.pure] using acquired.symm
    · split at acquired
      · simp at acquired
      · simp [pure, Except.pure] at acquired
  · simp [acquireWith, resource, inside, bind, Except.bind] at acquired

/-- A refused request changes priorities by the policy's own bookkeeping. -/
theorem acquireWith_refused
    (acquired : acquireWith onGrant onWait c resourceId s = .ok (false, s')) :
    ∃ (r : Fin nrResources) (owner : Fin n), r.val = resourceId ∧
      s.owner r = some owner ∧
      ∀ p, (s'.procs p).prio = ((onWait owner c s).procs p).prio := by
  by_cases inside : resourceId < nrResources
  · simp only [acquireWith, resource_of_lt inside, bind, Except.bind] at acquired
    split at acquired
    · simp [pure, Except.pure] at acquired
    · rename_i owner owned
      refine ⟨⟨resourceId, inside⟩, owner, rfl, owned, fun p => ?_⟩
      split at acquired
      · simp at acquired
      · rename_i result added
        obtain rfl : result = s' := by
          simpa [pure, Except.pure] using acquired
        unfold Sim.addTailWait at added
        split at added
        · obtain rfl := Except.ok.inj added
          exact (Steady.setStatus (onWait owner c s) c .blocked).prio p
        · simp at added
  · simp [acquireWith, resource, inside, bind, Except.bind] at acquired

/-- A release changes priorities by the policy's own bookkeeping. -/
theorem releaseWith_prio
    (released : releaseWith onRelease choose c resourceId s = .ok s')
    (p : Fin n) : (s'.procs p).prio = ((onRelease c s).procs p).prio := by
  by_cases inside : resourceId < nrResources
  · simp only [releaseWith, resource_of_lt inside, bind, Except.bind]
      at released
    split at released
    · simp at released
    · split at released
      · obtain rfl : (onRelease c s).setOwner ⟨resourceId, inside⟩ none = s' := by
          simpa [pure, Except.pure] using released
        rfl
      · split at released
        · simp at released
        · unfold Sim.addTailReady at released
          split at released
          · obtain rfl := Except.ok.inj released
            exact (Steady.setStatus _ _ .ready).prio p
          · simp at released
  · simp [releaseWith, resource, inside, bind, Except.bind] at released

/-- What a release without priority bookkeeping does to owners and queues. -/
theorem releaseWith_waiter
    (released : releaseWith (fun _ s => s) choose c resourceId s = .ok s') :
    ∃ r : Fin nrResources, r.val = resourceId ∧
      s'.owner = Function.update s.owner r none ∧
      ((s.waitqueue r = [] ∧ s'.waitqueue = s.waitqueue ∧
          s'.readyqueue = s.readyqueue) ∨
        ∃ first rest, s.waitqueue r = first :: rest ∧
          s'.waitqueue = Function.update s.waitqueue r ((first :: rest).erase
            (choose (s.setOwner r none) first (first :: rest))) ∧
          s'.readyqueue = s.readyqueue ++
            [choose (s.setOwner r none) first (first :: rest)]) := by
  by_cases inside : resourceId < nrResources
  · refine ⟨⟨resourceId, inside⟩, rfl, ?_⟩
    simp only [releaseWith, resource_of_lt inside, bind, Except.bind]
      at released
    split at released
    · simp at released
    · split at released
      · rename_i nobody
        obtain rfl : s.setOwner ⟨resourceId, inside⟩ none = s' := by
          simpa [pure, Except.pure] using released
        exact ⟨rfl, Or.inl ⟨nobody, rfl, rfl⟩⟩
      · rename_i first rest waitersEq
        split at released
        · simp at released
        · unfold Sim.addTailReady at released
          split at released
          · obtain rfl := Except.ok.inj released
            have queueEq : s.waitqueue ⟨resourceId, inside⟩ = first :: rest :=
              waitersEq
            refine ⟨rfl, Or.inr ⟨first, rest, queueEq, ?_, rfl⟩⟩
            rw [← queueEq]
            rfl
          · simp at released
  · simp [releaseWith, resource, inside, bind, Except.bind] at released

end Callbacks

/-- `current->prio = current->prio_orig`. -/
theorem restorePrio_prio (c p : Fin n) (s : Sim n) :
    ((restorePrio c s).procs p).prio =
      if p = c then (s.procs c).prioOrig else (s.procs p).prio := by
  rw [restorePrio, Sim.setPrio, Sim.modify_procs]
  split
  · rename_i same
    subst same
    rfl
  · rfl

/-- `r->owner->prio` after `pip_acquire` has found the resource taken. -/
theorem inheritPrio_prio (owner c p : Fin n) (s : Sim n) :
    ((inheritPrio owner c s).procs p).prio =
      if p = owner then max (s.procs owner).prio (s.procs c).prio
      else (s.procs p).prio := by
  unfold inheritPrio
  split
  · rename_i below
    rw [Sim.setPrio, Sim.modify_procs]
    split
    · rename_i same
      exact (Nat.max_eq_right (Nat.le_of_lt below)).symm
    · rfl
  · rename_i above
    split
    · rename_i same
      rw [same]
      exact (Nat.max_eq_left (Nat.not_lt.mp above)).symm
    · rfl

/-! ### The priority scheduler -/

theorem requeueUnfinished_prio {s s' : Sim n}
    (requeued : requeueUnfinished s = .ok s') (p : Fin n) :
    (s'.procs p).prio = (s.procs p).prio := by
  unfold requeueUnfinished at requeued
  split at requeued
  · obtain rfl := Except.ok.inj requeued
    rfl
  · split at requeued
    · unfold Sim.addTailReady at requeued
      split at requeued
      · obtain rfl := Except.ok.inj requeued
        rfl
      · simp at requeued
    · obtain rfl := Except.ok.inj requeued
      rfl

/-- Without aging the closing comparison leaves all priorities alone. -/
theorem switchTo_prio {next : Fin n} {chosen : Option (Fin n)} {s s' : Sim n}
    (switched : switchTo (fun _ s => s) next s = .ok (chosen, s')) (p : Fin n) :
    (s'.procs p).prio = (s.procs p).prio := by
  unfold switchTo at switched
  split at switched
  · obtain ⟨_, rfl⟩ := Prod.mk.inj (Except.ok.inj switched)
    rfl
  · split at switched
    · obtain ⟨_, rfl⟩ := Prod.mk.inj (Except.ok.inj switched)
      rfl
    · split at switched
      · obtain ⟨_, rfl⟩ := Prod.mk.inj (Except.ok.inj switched)
        rfl
      · split at switched
        · simp only [bind, Except.bind] at switched
          split at switched
          · simp at switched
          · rename_i requeued
            obtain ⟨_, rfl⟩ := Prod.mk.inj (Except.ok.inj switched)
            exact requeueUnfinished_prio requeued p
        · obtain ⟨_, rfl⟩ := Prod.mk.inj (Except.ok.inj switched)
          rfl

/-- `prio_schedule` leaves all priorities alone. -/
theorem prioSchedule_prio {chosen : Option (Fin n)} {s s' : Sim n}
    (scheduled : prioSchedule s = .ok (chosen, s')) (p : Fin n) :
    (s'.procs p).prio = (s.procs p).prio := by
  rcases keepAlone_cases scheduled with ⟨_, _, _, _, _, _, rfl⟩ | ⟨_, picked⟩
  · rfl
  · split at picked
    · obtain ⟨_, rfl⟩ := Prod.mk.inj (Except.ok.inj picked)
      rfl
    · exact switchTo_prio picked p

/-- Under a policy that schedules with `prio_schedule`, the first half of a
pass changes nothing that matters to the priorities. -/
theorem dispatch_samePriorities {guard : Sim n → Prop} {sched : Scheduler n}
    {s s' : Sim n} (contract : Contract True guard sched)
    (isPrio : sched.schedule = prioSchedule) (sound : Sound s)
    (guarded : guard (forkOnSchedule s))
    (dispatchedEq : dispatch sched s = .ok s') : SamePriorities s s' := by
  obtain ⟨next, chosen, scheduled, choice, _, retired⟩ :=
    sound.dispatched_cases contract guarded dispatchedEq
  rw [isPrio] at scheduled
  have dispatching := dispatching_of_phases sound.forked choice retired
  refine ⟨dispatching.owner, dispatching.waitqueue, fun p => ?_, fun p =>
    (SameScript.dispatched contract sound guarded dispatchedEq).prioOrig p⟩
  obtain ⟨status, eq⟩ := retired.procs p
  rw [eq]
  change (chosen.procs p).prio = _
  rw [prioSchedule_prio scheduled, sound.forked.procs]

end OsPAs.Sched
