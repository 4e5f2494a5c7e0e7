/-
Module: OsPAs.Sched.Runs
Purpose: The list discipline along whole runs.  `Sound` holds at the top of
  every pass of a policy under the contract, `Dispatched` between the two
  halves of a pass, `Busy` while the chosen process acquires and releases.
Trusted boundary: none
Main exports: KnownResources, Sound, Dispatched, Busy, Sound.dispatch,
  Dispatched.execute, Steady, Steady.script
-/
import OsPAs.Sched.Placement

namespace OsPAs.Sched

open Lib

variable {n : Nat}

/-- Every entry of every process names one of the sixteen resources. -/
def KnownResources (s : Sim n) : Prop :=
  ∀ p, ∀ rs ∈ (s.procs p).resourcesToAcquire ++ (s.procs p).resourcesHolding,
    rs.resourceId < nrResources

/-- State at the top of a pass. -/
structure Sound (s : Sim n) : Prop where
  linked : Linked s (runner s)
  active : ∀ p, (s.procs p).status = .running → s.current = some p
  current : ∀ c, s.current = some c →
    isBlocked s c ∨ (s.procs c).status = .running
  known : KnownResources s

/-- What `Sound` says of the lists, on any script. -/
structure Tidy (s : Sim n) : Prop where
  linked : Linked s (runner s)
  current : ∀ c, s.current = some c →
    isBlocked s c ∨ (s.procs c).status = .running

theorem Sound.tidy {s : Sim n} (sound : Sound s) : Tidy s :=
  ⟨sound.linked, sound.current⟩

/-- State between the two halves of a pass: the processor is given to the
current process and nobody is marked running yet. -/
structure Dispatched (s : Sim n) : Prop where
  linked : Linked s s.current
  resting : ∀ p, (s.procs p).status ≠ .running
  known : KnownResources s

/-- State while the current process `c` acquires and releases. -/
structure Busy (s : Sim n) (c : Fin n) : Prop where
  linked : Linked s (some c)
  isCurrent : s.current = some c
  running : (s.procs c).status = .running
  alone : ∀ p, (s.procs p).status = .running → p = c
  known : KnownResources s

/-- State after a request of the current process `c` was refused. -/
structure Refused (s : Sim n) (c : Fin n) : Prop where
  linked : Linked s none
  isCurrent : s.current = some c
  asleep : isBlocked s c
  resting : ∀ p, (s.procs p).status ≠ .running
  known : KnownResources s

/-! ### What the moves do to the processes -/

theorem Requested.procs_granted {s s' : Sim n} {c : Fin n}
    {r : Fin nrResources} (move : Requested s c r true s') (p : Fin n) :
    ∃ k, s'.procs p = { s.procs p with prio := k } := by
  cases move with
  | granted prio => exact ⟨prio p, rfl⟩

theorem Requested.procs_refused {s s' : Sim n} {c : Fin n}
    {r : Fin nrResources} (move : Requested s c r false s') (p : Fin n) :
    ∃ k, s'.procs p =
      { s.procs p with
        prio := k
        status := if p = c then .blocked else (s.procs p).status } := by
  cases move with
  | refused prio =>
      refine ⟨prio p, ?_⟩
      change ({ (s.setStatus c .blocked).procs p with prio := prio p } :
        Process) = _
      rw [Sim.setStatus, Sim.modify_procs]
      by_cases same : p = c
      · subst same; simp
      · simp [same]

theorem Released.procs {s s' : Sim n} {c : Fin n} {r : Fin nrResources}
    (move : Released s c r s') (p : Fin n) :
    ∃ k status, s'.procs p = { s.procs p with prio := k, status := status } ∧
      (status = (s.procs p).status ∨ isBlocked s p ∧ status = .ready) := by
  cases move with
  | quiet prio => exact ⟨prio p, (s.procs p).status, rfl, Or.inl rfl⟩
  | @wake waiter prio owned isWaiting asleep =>
      by_cases same : p = waiter
      · subst same
        refine ⟨prio p, .ready, ?_, Or.inr ⟨asleep, rfl⟩⟩
        simp [Sim.withPrio, Sim.wake, Sim.setStatus, Sim.modify,
          Sim.delInitWait, Sim.setOwner]
      · refine ⟨prio p, (s.procs p).status, ?_, Or.inl rfl⟩
        simp [Sim.withPrio, Sim.wake, Sim.setStatus, Sim.modify,
          Sim.delInitWait, Sim.setOwner, same]

theorem Requested.current {s s' : Sim n} {c : Fin n} {r : Fin nrResources}
    {granted : Bool} (move : Requested s c r granted s') :
    s'.current = s.current := by
  cases move <;> rfl

theorem Released.current {s s' : Sim n} {c : Fin n} {r : Fin nrResources}
    (move : Released s c r s') : s'.current = s.current := by
  cases move <;> rfl

/-! ### What the moves do to the owners and the waitqueues -/

section Owners

variable {s s' : Sim n} {c p : Fin n} {r i : Fin nrResources}

theorem Requested.free (move : Requested s c r true s') :
    s.owner r = none := by
  cases move with
  | granted prio free => exact free

theorem Requested.owner_granted (move : Requested s c r true s') :
    s'.owner = Function.update s.owner r (some c) := by
  cases move with
  | granted => rfl

theorem Requested.waitqueue_granted (move : Requested s c r true s') :
    s'.waitqueue = s.waitqueue := by
  cases move with
  | granted => rfl

theorem Requested.taken (move : Requested s c r false s') :
    s.owner r ≠ none := by
  cases move with
  | refused prio taken => simp [taken]

theorem Requested.owner_refused (move : Requested s c r false s') :
    s'.owner = s.owner := by
  cases move with
  | refused => rfl

theorem Requested.waitqueue_refused (move : Requested s c r false s') :
    s'.waitqueue = Function.update s.waitqueue r (s.waitqueue r ++ [c]) := by
  cases move with
  | refused => rfl

/-- Nobody but the process that is refused joins a waitqueue. -/
theorem Requested.mem_waitqueue_refused (move : Requested s c r false s') :
    p ∈ s'.waitqueue i ↔ p ∈ s.waitqueue i ∨ i = r ∧ p = c := by
  rw [move.waitqueue_refused, Function.update_apply]
  split
  · rename_i same
    subst same
    simp
  · rename_i other
    simp [other]

theorem Released.owned (move : Released s c r s') : s.owner r = some c := by
  cases move with
  | quiet prio owned => exact owned
  | wake prio owned => exact owned

theorem Released.owner (move : Released s c r s') :
    s'.owner = Function.update s.owner r none := by
  cases move with
  | quiet => rfl
  | wake => rfl

/-- A release makes nobody an owner. -/
theorem Released.owner_of_owner (move : Released s c r s')
    (owns : s'.owner i = some p) : s.owner i = some p := by
  rw [move.owner, Function.update_apply] at owns
  split at owns
  · simp at owns
  · exact owns

theorem Released.waitqueue_of_ne (move : Released s c r s') (other : i ≠ r) :
    s'.waitqueue i = s.waitqueue i := by
  cases move with
  | quiet => rfl
  | wake => exact Function.update_of_ne other _ s.waitqueue

/-- A release adds nobody to a waitqueue. -/
theorem Released.waitqueue_subset (move : Released s c r s')
    (i : Fin nrResources) : s'.waitqueue i ⊆ s.waitqueue i := by
  by_cases same : i = r
  · subst same
    cases move with
    | quiet => exact List.Subset.refl _
    | @wake waiter =>
        change Function.update s.waitqueue i ((s.waitqueue i).erase waiter) i ⊆ _
        rw [Function.update_self]
        exact List.erase_subset
  · rw [move.waitqueue_of_ne same]
    exact List.Subset.refl _

end Owners

/-! ### What the other steps of a tick do to the processes -/

theorem hold_procs (s : Sim n) (c p : Fin n) (rs : ResourceSchedule) :
    (s.hold c rs).procs p =
      { s.procs p with
        resourcesHolding :=
          if p = c then (s.procs p).resourcesHolding ++ [rs]
          else (s.procs p).resourcesHolding } := by
  rw [Sim.hold, Sim.modify_procs]
  by_cases same : p = c
  · subst same; simp
  · simp [same]

theorem setToAcquire_procs (s : Sim n) (c p : Fin n)
    (stay : List ResourceSchedule) :
    (s.setToAcquire c stay).procs p =
      { s.procs p with
        resourcesToAcquire :=
          if p = c then stay else (s.procs p).resourcesToAcquire } := by
  rw [Sim.setToAcquire, Sim.modify_procs]
  by_cases same : p = c
  · subst same; simp
  · simp [same]

theorem setHolding_procs (s : Sim n) (c p : Fin n)
    (stay : List ResourceSchedule) :
    (s.setHolding c stay).procs p =
      { s.procs p with
        resourcesHolding :=
          if p = c then stay else (s.procs p).resourcesHolding } := by
  rw [Sim.setHolding, Sim.modify_procs]
  by_cases same : p = c
  · subst same; simp
  · simp [same]

theorem growOlder_procs (s : Sim n) (c p : Fin n) :
    (growOlder c s).procs p =
      { s.procs p with
        age := if p = c then toUInt ((s.procs p).age + 1)
          else (s.procs p).age } := by
  rw [growOlder, Sim.modify_procs]
  by_cases same : p = c
  · subst same; simp
  · simp [same]

/-! ### The busy half of a pass -/

namespace Busy

variable {s s' : Sim n} {c : Fin n} {r : Fin nrResources}

theorem detached (busy : Busy s c) : s.detached c :=
  busy.linked.detached_of_run rfl

theorem print (busy : Busy s c) (event : Event n) :
    Busy (s.print event) c where
  linked := busy.linked.print event
  isCurrent := busy.isCurrent
  running := busy.running
  alone := busy.alone
  known := busy.known

theorem granted (busy : Busy s c) (move : Requested s c r true s') :
    Busy s' c where
  linked := busy.linked.granted move
  isCurrent := by rw [move.current]; exact busy.isCurrent
  running := by
    obtain ⟨k, eq⟩ := move.procs_granted c
    rw [eq]; exact busy.running
  alone := fun p ran => by
    obtain ⟨k, eq⟩ := move.procs_granted p
    rw [eq] at ran
    exact busy.alone p ran
  known := fun p rs member => by
    obtain ⟨k, eq⟩ := move.procs_granted p
    rw [eq] at member
    exact busy.known p rs member

theorem hold (busy : Busy s c) {rs : ResourceSchedule}
    (inside : rs.resourceId < nrResources) : Busy (s.hold c rs) c where
  linked := busy.linked.modify fun _ => rfl
  isCurrent := busy.isCurrent
  running := by rw [hold_procs]; exact busy.running
  alone := fun p ran => by
    rw [hold_procs] at ran
    exact busy.alone p ran
  known := fun p other member => by
    rw [hold_procs] at member
    by_cases same : p = c
    · simp only [if_pos same, List.mem_append, List.mem_singleton] at member
      rcases member with wants | holds | rfl
      · exact busy.known p other (List.mem_append_left _ wants)
      · exact busy.known p other (List.mem_append_right _ holds)
      · exact inside
    · simp only [if_neg same] at member
      exact busy.known p other member

theorem refused (busy : Busy s c) (move : Requested s c r false s') :
    Refused s' c where
  linked := busy.linked.refused move
  isCurrent := by rw [move.current]; exact busy.isCurrent
  asleep := by
    obtain ⟨k, eq⟩ := move.procs_refused c
    unfold isBlocked
    rw [eq]
    simp
  resting := fun p ran => by
    obtain ⟨k, eq⟩ := move.procs_refused p
    rw [eq] at ran
    by_cases same : p = c
    · simp [same] at ran
    · simp only [if_neg same] at ran
      exact same (busy.alone p ran)
  known := fun p rs member => by
    obtain ⟨k, eq⟩ := move.procs_refused p
    rw [eq] at member
    exact busy.known p rs member

theorem released (busy : Busy s c) (move : Released s c r s') :
    Busy s' c where
  linked := busy.linked.released move
  isCurrent := by rw [move.current]; exact busy.isCurrent
  running := by
    obtain ⟨k, status, eq, same | ⟨asleep, _⟩⟩ := move.procs c
    · rw [eq]; exact same.trans busy.running
    · exact absurd asleep (busy.linked.runs c rfl)
  alone := fun p ran => by
    obtain ⟨k, status, eq, same | ⟨_, woken⟩⟩ := move.procs p
    · rw [eq] at ran
      exact busy.alone p (same.symm.trans ran)
    · rw [eq] at ran
      simp [woken] at ran
  known := fun p rs member => by
    obtain ⟨k, status, eq, _⟩ := move.procs p
    rw [eq] at member
    exact busy.known p rs member

/-- An update of the current process that keeps its status and only drops
entries or counts them down. -/
theorem modify (busy : Busy s c) {change : Process → Process}
    (keeps : ∀ process, (change process).status = process.status)
    (known : ∀ rs ∈ (change (s.procs c)).resourcesToAcquire ++
      (change (s.procs c)).resourcesHolding, rs.resourceId < nrResources) :
    Busy (s.modify c change) c where
  linked := busy.linked.modify keeps
  isCurrent := busy.isCurrent
  running := by rw [Sim.modify_self, keeps]; exact busy.running
  alone := fun p ran => by
    rw [Sim.modify_procs] at ran
    by_cases same : p = c
    · exact same
    · rw [if_neg same] at ran
      exact busy.alone p ran
  known := fun p rs member => by
    rw [Sim.modify_procs] at member
    by_cases same : p = c
    · rw [if_pos same] at member
      exact known rs member
    · rw [if_neg same] at member
      exact busy.known p rs member

theorem runner (busy : Busy s c) : OsPAs.Sched.runner (nextTick s) = some c :=
  runner_eq_some.mpr ⟨busy.isCurrent, busy.linked.runs c rfl⟩

theorem sound (busy : Busy s c) : Sound (nextTick s) where
  linked := by
    rw [busy.runner]
    exact busy.linked.nextTick
  active := fun p ran => by
    rw [busy.alone p ran]; exact busy.isCurrent
  current := fun other isCurrent => by
    obtain rfl : c = other := Option.some.inj (busy.isCurrent.symm.trans isCurrent)
    exact Or.inr busy.running
  known := busy.known

end Busy

theorem Refused.print {s : Sim n} {c : Fin n} (refused : Refused s c)
    (event : Event n) : Refused (s.print event) c where
  linked := refused.linked.print event
  isCurrent := refused.isCurrent
  asleep := refused.asleep
  resting := refused.resting
  known := refused.known

/-- A refused process keeps the entries it has not visited. -/
theorem Refused.setToAcquire {s : Sim n} {c : Fin n} (refused : Refused s c)
    {entries : List ResourceSchedule}
    (inside : ∀ rs ∈ entries, rs.resourceId < nrResources) :
    Refused (s.setToAcquire c entries) c where
  linked := refused.linked.modify fun _ => rfl
  isCurrent := refused.isCurrent
  asleep := by
    unfold isBlocked
    rw [Sim.setToAcquire, Sim.modify_self]
    exact refused.asleep
  resting := fun p => by
    rw [Sim.setToAcquire, Sim.modify_procs]
    split
    · rename_i same; subst same; exact refused.resting p
    · exact refused.resting p
  known := fun p rs member => by
    rw [Sim.setToAcquire, Sim.modify_procs] at member
    by_cases same : p = c
    · rw [if_pos same] at member
      rcases List.mem_append.mp member with wants | holds
      · exact inside rs wants
      · exact refused.known c rs (List.mem_append_right _ holds)
    · rw [if_neg same] at member
      exact refused.known p rs member

theorem Refused.runner {s : Sim n} {c : Fin n} (refused : Refused s c) :
    OsPAs.Sched.runner (nextTick s) = none := by
  rw [Option.eq_none_iff_forall_ne_some]
  intro p isRunner
  obtain ⟨isCurrent, awake⟩ := runner_eq_some.mp isRunner
  obtain rfl : c = p := Option.some.inj (refused.isCurrent.symm.trans isCurrent)
  exact awake refused.asleep

theorem Refused.sound {s : Sim n} {c : Fin n} (refused : Refused s c) :
    Sound (nextTick s) where
  linked := by
    rw [refused.runner]
    exact refused.linked.nextTick
  active := fun p ran => absurd ran (refused.resting p)
  current := fun other isCurrent => by
    obtain rfl : c = other :=
      Option.some.inj (refused.isCurrent.symm.trans isCurrent)
    exact Or.inl refused.asleep
  known := refused.known

/-! ### The dispatching half of a pass -/

theorem Chosen.procs {live : Prop} {s s' : Sim n} {next : Option (Fin n)}
    (choice : Chosen live s next s') (p : Fin n) :
    ∃ k, s'.procs p = { s.procs p with prio := k } := by
  cases choice with
  | keep prio => exact ⟨prio p, rfl⟩
  | idle => exact ⟨(s.procs p).prio, rfl⟩
  | pick prio => exact ⟨prio p, rfl⟩
  | preempt prio => exact ⟨prio p, rfl⟩

theorem rest_procs (s : Sim n) (p q : Fin n) :
    (s.rest p).procs q =
      { s.procs q with
        status :=
          if q = p ∧ (s.procs p).status = .running then .ready
          else (s.procs q).status } := by
  unfold Sim.rest
  split
  · rename_i ran
    rw [Sim.setStatus, Sim.modify_procs]
    by_cases same : q = p
    · subst same; simp [ran]
    · simp [same]
  · rename_i notRunning
    simp [notRunning]

theorem setStatus_procs (s : Sim n) (p q : Fin n) (status : ProcessStatus) :
    (s.setStatus p status).procs q =
      { s.procs q with
        status := if q = p then status else (s.procs q).status } := by
  rw [Sim.setStatus, Sim.modify_procs]
  by_cases same : q = p
  · subst same; simp
  · simp [same]

theorem Retired.procs {s s' : Sim n} {prev : Option (Fin n)}
    (done : Retired s prev s') (p : Fin n) :
    ∃ status, s'.procs p = { s.procs p with status := status } := by
  cases done with
  | nobody => exact ⟨(s.procs p).status, rfl⟩
  | goesOn => exact ⟨_, rest_procs s _ p⟩
  | exits => exact ⟨_, setStatus_procs s _ p .exit⟩

theorem Retired.current {s s' : Sim n} {prev : Option (Fin n)}
    (done : Retired s prev s') : s'.current = s.current := by
  cases done with
  | nobody => rfl
  | goesOn =>
      unfold Sim.rest
      split
      · rfl
      · rfl
  | exits => rfl

/-- Only the previous process can have been running, and it no longer is. -/
theorem Retired.resting {s s' : Sim n} {prev : Option (Fin n)}
    (done : Retired s prev s')
    (active : ∀ p, (s.procs p).status = .running → prev = some p) (p : Fin n) :
    (s'.procs p).status ≠ .running := by
  intro ran
  cases done with
  | nobody => simpa using active p ran
  | @goesOn q alive =>
      rw [rest_procs] at ran
      by_cases same : p = q ∧ (s.procs q).status = .running
      · simp [same] at ran
      · simp only [if_neg same] at ran
        obtain rfl : q = p := Option.some.inj (active p ran)
        exact same ⟨rfl, ran⟩
  | @exits q =>
      rw [Sim.print_procs, setStatus_procs] at ran
      by_cases same : p = q
      · simp [same] at ran
      · simp only [if_neg same] at ran
        exact same (Option.some.inj (active p ran)).symm

theorem Tidy.forked {s : Sim n} (tidy : Tidy s) :
    Forked s (forkOnSchedule s) [] s.forkqueue :=
  forkOnSchedule_fields tidy.linked.nodup_forkqueue tidy.linked.forking

theorem Sound.forked {s : Sim n} (sound : Sound s) :
    Forked s (forkOnSchedule s) [] s.forkqueue :=
  sound.tidy.forked

theorem Forked.isBlocked_iff {s s' : Sim n} {before todo : List (Fin n)}
    (forked : Forked s s' before todo) (p : Fin n) :
    isBlocked s' p ↔ isBlocked s p := by
  unfold isBlocked
  rw [forked.procs]

theorem Forked.runner {s s' : Sim n} {before todo : List (Fin n)}
    (forked : Forked s s' before todo) :
    OsPAs.Sched.runner s' = OsPAs.Sched.runner s := by
  unfold OsPAs.Sched.runner
  rw [forked.current]
  simp only [forked.isBlocked_iff]

section Contract

variable {live : Prop} {guard : Sim n → Prop} {sched : Scheduler n}

/-- The lists are linked when the policy is asked. -/
theorem Tidy.linked_forked {s : Sim n} (tidy : Tidy s) :
    Linked (forkOnSchedule s) (runner (forkOnSchedule s)) := by
  rw [tidy.forked.runner]
  exact tidy.linked.forked tidy.forked

theorem Tidy.loose_forked {s : Sim n} (tidy : Tidy s) :
    CurrentLoose (forkOnSchedule s) := fun _ isCurrent awake =>
  tidy.linked_forked.detached_of_run (runner_eq_some.mpr ⟨isCurrent, awake⟩)

/-- The first half of a pass asks the policy for a process under the contract
and then handles the previous one. -/
theorem Tidy.schedules (contract : Contract live guard sched) {s : Sim n}
    (tidy : Tidy s) (guarded : guard (forkOnSchedule s)) :
    ∃ next s₁, sched.schedule (forkOnSchedule s) = .ok (next, s₁) ∧
      Chosen live (forkOnSchedule s) next s₁ ∧
      Linked { s₁ with current := next } next ∧
      dispatch sched s =
        retirePrev s.current { s₁ with current := next } := by
  have forked := tidy.forked
  obtain ⟨next, s₁, scheduled, choice⟩ :=
    contract.schedule (forkOnSchedule s) guarded tidy.loose_forked
  refine ⟨next, s₁, scheduled, choice, ?_, dispatch_eq scheduled⟩
  refine (tidy.linked_forked.chosen ?_ choice).congr rfl rfl rfl fun _ => rfl
  intro c isCurrent awake
  rw [forked.procs]
  rw [forked.current] at isCurrent
  exact Or.inr ((tidy.current c isCurrent).resolve_left
    ((forked.isBlocked_iff c).not.mp awake))

/-- Inversion of a first half that goes through. -/
theorem Tidy.dispatched_cases (contract : Contract live guard sched)
    {s mid : Sim n} (tidy : Tidy s) (guarded : guard (forkOnSchedule s))
    (dispatchedEq : dispatch sched s = .ok mid) :
    ∃ next chosen, sched.schedule (forkOnSchedule s) = .ok (next, chosen) ∧
      Chosen live (forkOnSchedule s) next chosen ∧
      Linked { chosen with current := next } next ∧
      Retired { chosen with current := next } s.current mid := by
  obtain ⟨next, chosen, scheduled, choice, linked, dispatchEq⟩ :=
    tidy.schedules contract guarded
  refine ⟨next, chosen, scheduled, choice, linked, ?_⟩
  rcases retirePrev_cases { chosen with current := next } s.current with
    ⟨s', retiredEq, retired⟩ | ⟨failed, _⟩
  · obtain rfl : s' = mid :=
      Except.ok.inj (retiredEq.symm.trans (dispatchEq.symm.trans dispatchedEq))
    exact retired
  · rw [dispatchEq, failed] at dispatchedEq
    simp at dispatchedEq

theorem Sound.linked_forked {s : Sim n} (sound : Sound s) :
    Linked (forkOnSchedule s) (runner (forkOnSchedule s)) :=
  sound.tidy.linked_forked

theorem Sound.loose_forked {s : Sim n} (sound : Sound s) :
    CurrentLoose (forkOnSchedule s) :=
  sound.tidy.loose_forked

theorem Sound.schedules (contract : Contract live guard sched) {s : Sim n}
    (sound : Sound s) (guarded : guard (forkOnSchedule s)) :
    ∃ next s₁, sched.schedule (forkOnSchedule s) = .ok (next, s₁) ∧
      Chosen live (forkOnSchedule s) next s₁ ∧
      Linked { s₁ with current := next } next ∧
      dispatch sched s =
        retirePrev s.current { s₁ with current := next } :=
  sound.tidy.schedules contract guarded

theorem Sound.dispatched_cases (contract : Contract live guard sched)
    {s mid : Sim n} (sound : Sound s) (guarded : guard (forkOnSchedule s))
    (dispatchedEq : dispatch sched s = .ok mid) :
    ∃ next chosen, sched.schedule (forkOnSchedule s) = .ok (next, chosen) ∧
      Chosen live (forkOnSchedule s) next chosen ∧
      Linked { chosen with current := next } next ∧
      Retired { chosen with current := next } s.current mid :=
  sound.tidy.dispatched_cases contract guarded dispatchedEq

/-- The first half of a pass fails an assertion or leaves a dispatched state. -/
theorem Sound.dispatch (contract : Contract live guard sched) {s : Sim n}
    (sound : Sound s) (guarded : guard (forkOnSchedule s)) :
    dispatch sched s = .error .assertFailed ∨
      ∃ s', OsPAs.Sched.dispatch sched s = .ok s' ∧ Dispatched s' := by
  obtain ⟨next, s₁, scheduled, choice, linked, dispatchEq⟩ :=
    sound.schedules contract guarded
  rcases retirePrev_cases { s₁ with current := next } s.current with
    ⟨s', retiredEq, retired⟩ | ⟨failed, _⟩
  · refine Or.inr ⟨s', dispatchEq.trans retiredEq, ?_, ?_, ?_⟩
    · rw [retired.current]
      exact linked.retired retired
    · refine retired.resting fun p ran => ?_
      obtain ⟨k, eq⟩ := choice.procs p
      change (s₁.procs p).status = .running at ran
      rw [eq, sound.forked.procs] at ran
      exact sound.active p ran
    · intro p rs member
      obtain ⟨status, eq⟩ := retired.procs p
      obtain ⟨k, eq₁⟩ := choice.procs p
      rw [eq] at member
      change rs ∈ (s₁.procs p).resourcesToAcquire ++
        (s₁.procs p).resourcesHolding at member
      rw [eq₁, sound.forked.procs] at member
      exact sound.known p rs member
  · exact Or.inl (dispatchEq.trans failed)

/-! ### The executing half of a pass -/

/-- The chosen process is busy once it is marked running. -/
theorem Dispatched.busy {s : Sim n} (dispatched : Dispatched s) {c : Fin n}
    (isCurrent : s.current = some c) : Busy (s.setStatus c .running) c where
  linked := by
    have linked := dispatched.linked
    rw [isCurrent] at linked
    exact linked.setStatus_of_detached (linked.detached_of_run rfl) (by simp)
  isCurrent := isCurrent
  running := by rw [setStatus_procs]; simp
  alone := fun p ran => by
    rw [setStatus_procs] at ran
    by_contra other
    simp only [if_neg other] at ran
    exact dispatched.resting p ran
  known := fun p rs member => by
    rw [setStatus_procs] at member
    exact dispatched.known p rs member

/-- Rule for `__run_current_acquire` of a busy process: it stays busy, or its
request is refused, and what the obligations carry comes along. -/
theorem Busy.acquire_rule (contract : Contract live guard sched)
    {s : Sim n} {c : Fin n} (busy : Busy s c)
    {Before : List ResourceSchedule → List ResourceSchedule → Sim n → Prop}
    {After : List ResourceSchedule → Sim n → Prop}
    (skip : ∀ kept rs rest s, Busy s c → Before kept (rs :: rest) s →
      rs.atAge ≠ (s.procs c).age → Before (kept ++ [rs]) rest s)
    (grant : ∀ kept rs rest t inside t', Busy t c → Before kept (rs :: rest) t →
      rs.atAge = (t.procs c).age →
      (rs, t) ∈
        acquireCalls sched c (s.procs c).resourcesToAcquire s →
      sched.acquire c rs.resourceId t = .ok (true, t') →
      Requested t c ⟨rs.resourceId, inside⟩ true t' →
      Before kept rest ((t'.hold c rs).print (.acquired c rs.resourceId)))
    (refuse : ∀ kept rs rest t inside t', Busy t c →
      Before kept (rs :: rest) t → rs.atAge = (t.procs c).age →
      (rs, t) ∈
        acquireCalls sched c (s.procs c).resourcesToAcquire s →
      sched.acquire c rs.resourceId t = .ok (false, t') →
      Requested t c ⟨rs.resourceId, inside⟩ false t' →
      After (kept ++ rs :: rest) (t'.print (.blocked c rs.resourceId)))
    (start : Before [] (s.procs c).resourcesToAcquire s) :
    ∃ granted stay s',
      runCurrentAcquire sched c s = .ok (granted, s'.setToAcquire c stay) ∧
      (granted = true →
        Busy (s'.setToAcquire c stay) c ∧ Before stay [] s') ∧
      (granted = false →
        Refused (s'.setToAcquire c stay) c ∧ After stay s') := by
  obtain ⟨granted, stay, s', ran, onGranted, onRefused⟩ :=
    acquireLoop_rule (c := c) contract
      (acquireCalls sched c (s.procs c).resourcesToAcquire s)
      (fun kept todo s => (Busy s c ∧
        ∀ rs ∈ kept ++ todo, rs.resourceId < nrResources) ∧ Before kept todo s)
      (fun kept s => (Refused s c ∧
        ∀ rs ∈ kept, rs.resourceId < nrResources) ∧ After kept s)
      (fun kept rs rest s before _ => ⟨before.1.1.detached,
        before.1.2 rs (by simp)⟩)
      (fun kept rs rest s before later =>
        ⟨⟨before.1.1, by simpa using before.1.2⟩,
          skip kept rs rest s before.1.1 before.2 later⟩)
      (fun kept rs rest s inside s' before now called acquired move =>
        ⟨⟨((before.1.1.granted move).hold inside).print _,
          fun other member => before.1.2 other (by
            rcases List.mem_append.mp member with old | new
            · exact List.mem_append_left _ old
            · exact List.mem_append_right _ (List.mem_cons_of_mem rs new))⟩,
          grant kept rs rest s inside s' before.1.1 before.2 now called acquired
            move⟩)
      (fun kept rs rest s inside s' before now called acquired move =>
        ⟨⟨(before.1.1.refused move).print _, before.1.2⟩,
          refuse kept rs rest s inside s' before.1.1 before.2 now called
            acquired move⟩)
      (s.procs c).resourcesToAcquire [] s
      ⟨⟨busy, fun rs member => busy.known c rs (by simpa using Or.inl member)⟩,
        start⟩
      (List.Subset.refl _)
  refine ⟨granted, stay, s', runCurrentAcquire_of_loop ran, ?_, ?_⟩
  · intro wasGranted
    obtain ⟨⟨busy', inside⟩, before⟩ := onGranted wasGranted
    refine ⟨busy'.modify (fun _ => rfl) fun rs member => ?_, before⟩
    rcases List.mem_append.mp member with wants | holds
    · exact inside rs (by simpa using wants)
    · exact busy'.known c rs (List.mem_append_right _ holds)
  · intro wasRefused
    obtain ⟨⟨refused, inside⟩, after⟩ := onRefused wasRefused
    exact ⟨refused.setToAcquire (by simpa using inside), after⟩

/-- Rule for `__run_current_release` of a busy process.  With `strict` it is
known to own what it releases, without it an assertion may end the run. -/
theorem Busy.release_rule (contract : Contract live guard sched)
    (strict : Prop) {s : Sim n} {c : Fin n} (busy : Busy s c)
    {Inv : List ResourceSchedule → List ResourceSchedule → Sim n → Prop}
    (owns : ∀ kept rs rest t inside, Busy t c → Inv kept (rs :: rest) t →
      strict → t.owner ⟨rs.resourceId, inside⟩ = some c)
    (keep : ∀ kept rs rest t, Busy t c → Inv kept (rs :: rest) t →
      subUInt rs.duration 1 ≠ 0 → Inv (kept ++ [rs.countDown]) rest t)
    (drop : ∀ kept rs rest t inside t', Busy t c → Inv kept (rs :: rest) t →
      subUInt rs.duration 1 = 0 →
      sched.release c rs.resourceId t = .ok t' →
      Released t c ⟨rs.resourceId, inside⟩ t' →
      Inv kept rest (t'.print (.released c rs.resourceId)))
    (start : Inv [] (s.procs c).resourcesHolding s) :
    (¬ strict ∧ runCurrentRelease sched c s = .error .assertFailed) ∨
      ∃ stay s', runCurrentRelease sched c s = .ok (s'.setHolding c stay) ∧
        Busy (s'.setHolding c stay) c ∧ Inv stay [] s' := by
  rcases releaseLoop_rule (c := c) contract strict
      (fun kept todo s => (Busy s c ∧
        ∀ rs ∈ kept ++ todo, rs.resourceId < nrResources) ∧ Inv kept todo s)
      (fun kept rs rest s inv _ => ⟨inv.1.2 rs (by simp),
        inv.1.1.linked.waitersLoose _, fun isStrict =>
          ⟨owns kept rs rest s _ inv.1.1 inv.2 isStrict,
            fun waiter isWaiting => inv.1.1.linked.waiting waiter _ isWaiting⟩⟩)
      (fun kept rs rest s inv goesOn => ⟨⟨inv.1.1, by
        intro other member
        have inside := inv.1.2 rs (by simp)
        simp only [List.append_assoc, List.mem_append, List.mem_cons,
          List.not_mem_nil, or_false] at member
        rcases member with old | rfl | new
        · exact inv.1.2 other (List.mem_append_left _ old)
        · rw [countDown_resourceId]
          exact inside
        · exact inv.1.2 other
            (List.mem_append_right _ (List.mem_cons_of_mem rs new))⟩,
        keep kept rs rest s inv.1.1 inv.2 goesOn⟩)
      (fun kept rs rest s inside s' inv ended released move =>
        ⟨⟨(inv.1.1.released move).print _, fun other member => inv.1.2 other (by
          rcases List.mem_append.mp member with old | new
          · exact List.mem_append_left _ old
          · exact List.mem_append_right _ (List.mem_cons_of_mem rs new))⟩,
          drop kept rs rest s inside s' inv.1.1 inv.2 ended released move⟩)
      (s.procs c).resourcesHolding [] s
      ⟨⟨busy, fun rs member => busy.known c rs (by simpa using Or.inr member)⟩,
        start⟩
    with ⟨lax, failed⟩ | ⟨stay, s', ran, ⟨busy', inside⟩, inv⟩
  · exact Or.inl ⟨lax, runCurrentRelease_of_loop_error failed⟩
  · refine Or.inr ⟨stay, s', runCurrentRelease_of_loop ran,
      busy'.modify (fun _ => rfl) fun rs member => ?_, inv⟩
    rcases List.mem_append.mp member with wants | holds
    · exact busy'.known c rs (List.mem_append_left _ wants)
    · exact inside rs (by simpa using holds)

theorem Busy.growOlder {s : Sim n} {c : Fin n} (busy : Busy s c) :
    Busy (growOlder c s) c :=
  busy.modify (fun _ => rfl) fun rs member => busy.known c rs member

/-- The second half of a pass unfolded for a process that was not freed. -/
theorem execute_of_current {s : Sim n} {c : Fin n}
    (isCurrent : s.current = some c) (notFreed : (s.procs c).status ≠ .exit)
    (loose : s.detached c) :
    execute sched s = (do
      let (granted, s) ← runCurrentAcquire sched c (s.setStatus c .running)
      if granted then
        let s ← runCurrentRelease sched c (growOlder c (s.print (.ran c)))
        return nextTick s
      else
        return nextTick s) := by
  have looseNow : (s.setStatus c .running).detached c := loose
  simp only [execute, isCurrent, if_neg notFreed, cAssert_of_true looseNow,
    bind, Except.bind]

/-- What is carried through the second half of a pass that runs process `c` from
state `s`: `Before` and `After` through its requests, `Inv` through its
releases. -/
structure Carries (sched : Scheduler n) (strict : Prop) (s : Sim n) (c : Fin n)
    (Before : List ResourceSchedule → List ResourceSchedule → Sim n → Prop)
    (After : List ResourceSchedule → Sim n → Prop)
    (Inv : List ResourceSchedule → List ResourceSchedule → Sim n → Prop) :
    Prop where
  start : Before [] (s.procs c).resourcesToAcquire (s.setStatus c .running)
  skip : ∀ kept rs rest t, Busy t c → Before kept (rs :: rest) t →
    rs.atAge ≠ (t.procs c).age → Before (kept ++ [rs]) rest t
  grant : ∀ kept rs rest t inside t', Busy t c → Before kept (rs :: rest) t →
    rs.atAge = (t.procs c).age →
    (rs, t) ∈ acquireCalls sched c (s.procs c).resourcesToAcquire
      (s.setStatus c .running) →
    sched.acquire c rs.resourceId t = .ok (true, t') →
    Requested t c ⟨rs.resourceId, inside⟩ true t' →
    Before kept rest ((t'.hold c rs).print (.acquired c rs.resourceId))
  refuse : ∀ kept rs rest t inside t', Busy t c → Before kept (rs :: rest) t →
    rs.atAge = (t.procs c).age →
    (rs, t) ∈ acquireCalls sched c (s.procs c).resourcesToAcquire
      (s.setStatus c .running) →
    sched.acquire c rs.resourceId t = .ok (false, t') →
    Requested t c ⟨rs.resourceId, inside⟩ false t' →
    After (kept ++ rs :: rest) (t'.print (.blocked c rs.resourceId))
  turn : ∀ stay t, Busy (t.setToAcquire c stay) c → Before stay [] t →
    runCurrentAcquire sched c (s.setStatus c .running) =
      .ok (true, t.setToAcquire c stay) →
    Inv [] (t.procs c).resourcesHolding
      (growOlder c ((t.setToAcquire c stay).print (.ran c)))
  owns : ∀ kept rs rest t inside, Busy t c → Inv kept (rs :: rest) t →
    strict → t.owner ⟨rs.resourceId, inside⟩ = some c
  keep : ∀ kept rs rest t, Busy t c → Inv kept (rs :: rest) t →
    subUInt rs.duration 1 ≠ 0 → Inv (kept ++ [rs.countDown]) rest t
  drop : ∀ kept rs rest t inside t', Busy t c → Inv kept (rs :: rest) t →
    subUInt rs.duration 1 = 0 →
    sched.release c rs.resourceId t = .ok t' →
    Released t c ⟨rs.resourceId, inside⟩ t' →
    Inv kept rest (t'.print (.released c rs.resourceId))

/-- The second half of a pass that runs process `c`: it fails an assertion, or
ends refused or after the releases, with what was carried. -/
theorem Carries.execute (contract : Contract live guard sched)
    {strict : Prop} {s : Sim n} {c : Fin n}
    {Before : List ResourceSchedule → List ResourceSchedule → Sim n → Prop}
    {After : List ResourceSchedule → Sim n → Prop}
    {Inv : List ResourceSchedule → List ResourceSchedule → Sim n → Prop}
    (carries : Carries sched strict s c Before After Inv)
    (dispatched : Dispatched s) (isCurrent : s.current = some c)
    (notFreed : (s.procs c).status ≠ .exit) :
    (¬ strict ∧ execute sched s = .error .assertFailed) ∨
      ∃ stay t,
        (OsPAs.Sched.execute sched s = .ok (nextTick (t.setToAcquire c stay)) ∧
          Refused (t.setToAcquire c stay) c ∧ After stay t) ∨
        (OsPAs.Sched.execute sched s = .ok (nextTick (t.setHolding c stay)) ∧
          Busy (t.setHolding c stay) c ∧ Inv stay [] t) := by
  have linked := dispatched.linked
  rw [isCurrent] at linked
  have loose := linked.detached_of_run rfl
  have wants : ((s.setStatus c .running).procs c).resourcesToAcquire =
      (s.procs c).resourcesToAcquire := by rw [setStatus_procs]
  obtain ⟨granted, stay, t, acquired, onGranted, onRefused⟩ :=
    (dispatched.busy isCurrent).acquire_rule contract carries.skip
      (fun kept rs rest t inside t' busy before now called =>
        carries.grant kept rs rest t inside t' busy before now
          (by rwa [wants] at called))
      (fun kept rs rest t inside t' busy before now called =>
        carries.refuse kept rs rest t inside t' busy before now
          (by rwa [wants] at called))
      (by rw [wants]; exact carries.start)
  rw [execute_of_current isCurrent notFreed loose]
  cases granted with
  | false =>
      obtain ⟨refused, after⟩ := onRefused rfl
      refine Or.inr ⟨stay, t, Or.inl ⟨?_, refused, after⟩⟩
      simp only [acquired, bind, Except.bind, pure, Except.pure,
        Bool.false_eq_true, if_false]
  | true =>
      obtain ⟨busy, before⟩ := onGranted rfl
      have holds : ((growOlder c ((t.setToAcquire c stay).print (.ran c))).procs
          c).resourcesHolding = (t.procs c).resourcesHolding := by
        simp [growOlder, Sim.setToAcquire]
      rcases ((busy.print (.ran c)).growOlder).release_rule contract strict
          carries.owns carries.keep carries.drop
          (by rw [holds]; exact carries.turn stay t busy before acquired)
        with ⟨lax, failed⟩ | ⟨stay', t', released, busy', inv⟩
      · refine Or.inl ⟨lax, ?_⟩
        simp only [acquired, failed, bind, Except.bind, if_true]
      · refine Or.inr ⟨stay', t', Or.inr ⟨?_, busy', inv⟩⟩
        simp only [acquired, released, bind, Except.bind, pure,
          Except.pure, if_true]

/-- Carrying more alongside what is carried already, which the obligations may
use. -/
theorem Carries.alongside {strict : Prop} {s : Sim n} {c : Fin n}
    {Before Before' : List ResourceSchedule → List ResourceSchedule → Sim n →
      Prop}
    {After After' : List ResourceSchedule → Sim n → Prop}
    {Inv Inv' : List ResourceSchedule → List ResourceSchedule → Sim n → Prop}
    (carries : Carries sched strict s c Before After Inv)
    (start : Before' [] (s.procs c).resourcesToAcquire (s.setStatus c .running))
    (skip : ∀ kept rs rest t, Busy t c → Before kept (rs :: rest) t →
      Before' kept (rs :: rest) t → rs.atAge ≠ (t.procs c).age →
      Before' (kept ++ [rs]) rest t)
    (grant : ∀ kept rs rest t inside t', Busy t c →
      Before kept (rs :: rest) t → Before' kept (rs :: rest) t →
      rs.atAge = (t.procs c).age →
      (rs, t) ∈ acquireCalls sched c (s.procs c).resourcesToAcquire
        (s.setStatus c .running) →
      sched.acquire c rs.resourceId t = .ok (true, t') →
      Requested t c ⟨rs.resourceId, inside⟩ true t' →
      Before' kept rest ((t'.hold c rs).print (.acquired c rs.resourceId)))
    (refuse : ∀ kept rs rest t inside t', Busy t c →
      Before kept (rs :: rest) t → Before' kept (rs :: rest) t →
      rs.atAge = (t.procs c).age →
      (rs, t) ∈ acquireCalls sched c (s.procs c).resourcesToAcquire
        (s.setStatus c .running) →
      sched.acquire c rs.resourceId t = .ok (false, t') →
      Requested t c ⟨rs.resourceId, inside⟩ false t' →
      After' (kept ++ rs :: rest) (t'.print (.blocked c rs.resourceId)))
    (turn : ∀ stay t, Busy (t.setToAcquire c stay) c → Before stay [] t →
      Before' stay [] t →
      runCurrentAcquire sched c (s.setStatus c .running) =
        .ok (true, t.setToAcquire c stay) →
      Inv' [] (t.procs c).resourcesHolding
        (growOlder c ((t.setToAcquire c stay).print (.ran c))))
    (keep : ∀ kept rs rest t, Busy t c → Inv kept (rs :: rest) t →
      Inv' kept (rs :: rest) t → subUInt rs.duration 1 ≠ 0 →
      Inv' (kept ++ [rs.countDown]) rest t)
    (drop : ∀ kept rs rest t inside t', Busy t c → Inv kept (rs :: rest) t →
      Inv' kept (rs :: rest) t → subUInt rs.duration 1 = 0 →
      sched.release c rs.resourceId t = .ok t' →
      Released t c ⟨rs.resourceId, inside⟩ t' →
      Inv kept rest (t'.print (.released c rs.resourceId)) →
      Inv' kept rest (t'.print (.released c rs.resourceId))) :
    Carries sched strict s c
      (fun kept todo t => Before kept todo t ∧ Before' kept todo t)
      (fun stay t => After stay t ∧ After' stay t)
      (fun kept todo t => Inv kept todo t ∧ Inv' kept todo t) where
  start := ⟨carries.start, start⟩
  skip := fun kept rs rest t busy before later =>
    ⟨carries.skip kept rs rest t busy before.1 later,
      skip kept rs rest t busy before.1 before.2 later⟩
  grant := fun kept rs rest t inside t' busy before now called acquired move =>
    ⟨carries.grant kept rs rest t inside t' busy before.1 now called acquired
        move,
      grant kept rs rest t inside t' busy before.1 before.2 now called acquired
        move⟩
  refuse := fun kept rs rest t inside t' busy before now called acquired move =>
    ⟨carries.refuse kept rs rest t inside t' busy before.1 now called acquired
        move,
      refuse kept rs rest t inside t' busy before.1 before.2 now called acquired
        move⟩
  turn := fun stay t busy before acquired =>
    ⟨carries.turn stay t busy before.1 acquired,
      turn stay t busy before.1 before.2 acquired⟩
  owns := fun kept rs rest t inside busy inv =>
    carries.owns kept rs rest t inside busy inv.1
  keep := fun kept rs rest t busy inv goesOn =>
    ⟨carries.keep kept rs rest t busy inv.1 goesOn,
      keep kept rs rest t busy inv.1 inv.2 goesOn⟩
  drop := fun kept rs rest t inside t' busy inv last released move =>
    have dropped := carries.drop kept rs rest t inside t' busy inv.1 last
      released move
    ⟨dropped, drop kept rs rest t inside t' busy inv.1 inv.2 last released move
      dropped⟩

/-- What is carried holds at each call of the acquire callback. -/
theorem Carries.call (contract : Contract live guard sched)
    {strict : Prop} {s t : Sim n} {c : Fin n} {rs : ResourceSchedule}
    {Before : List ResourceSchedule → List ResourceSchedule → Sim n → Prop}
    {After : List ResourceSchedule → Sim n → Prop}
    {Inv : List ResourceSchedule → List ResourceSchedule → Sim n → Prop}
    (carries : Carries sched strict s c Before After Inv)
    (dispatched : Dispatched s) (isCurrent : s.current = some c)
    (called : (rs, t) ∈ acquireCalls sched c (s.procs c).resourcesToAcquire
      (s.setStatus c .running)) :
    ∃ kept rest, Busy t c ∧ Before kept (rs :: rest) t ∧
      rs.atAge = (t.procs c).age ∧ rs.resourceId < nrResources := by
  obtain ⟨kept, rest, ⟨⟨busy, inside⟩, before⟩, now⟩ :=
    acquireCalls_rule (c := c) contract
      (acquireCalls sched c (s.procs c).resourcesToAcquire
        (s.setStatus c .running))
      (fun kept todo t => (Busy t c ∧
        ∀ rs ∈ kept ++ todo, rs.resourceId < nrResources) ∧ Before kept todo t)
      (fun kept rs rest t before _ => ⟨before.1.1.detached,
        before.1.2 rs (by simp)⟩)
      (fun kept rs rest t before later =>
        ⟨⟨before.1.1, by simpa using before.1.2⟩,
          carries.skip kept rs rest t before.1.1 before.2 later⟩)
      (fun kept rs rest t inside t' before now called acquired move =>
        ⟨⟨((before.1.1.granted move).hold inside).print _,
          fun other member => before.1.2 other (by
            rcases List.mem_append.mp member with old | new
            · exact List.mem_append_left _ old
            · exact List.mem_append_right _ (List.mem_cons_of_mem rs new))⟩,
          carries.grant kept rs rest t inside t' before.1.1 before.2 now called
            acquired move⟩)
      (s.procs c).resourcesToAcquire [] (s.setStatus c .running)
      ⟨⟨dispatched.busy isCurrent, fun rs member =>
        dispatched.known c rs (List.mem_append_left _ (by simpa using member))⟩,
        carries.start⟩
      (List.Subset.refl _) rs t called
  exact ⟨kept, rest, busy, before, now, inside rs (by simp)⟩

/-- Inversion of a second half that goes through and runs process `c`. -/
theorem Carries.executed (contract : Contract live guard sched)
    {strict : Prop} {s s' : Sim n} {c : Fin n}
    {Before : List ResourceSchedule → List ResourceSchedule → Sim n → Prop}
    {After : List ResourceSchedule → Sim n → Prop}
    {Inv : List ResourceSchedule → List ResourceSchedule → Sim n → Prop}
    (carries : Carries sched strict s c Before After Inv)
    (dispatched : Dispatched s) (isCurrent : s.current = some c)
    (executedEq : OsPAs.Sched.execute sched s = .ok s') :
    ∃ stay t,
      (s' = nextTick (t.setToAcquire c stay) ∧
        Refused (t.setToAcquire c stay) c ∧ After stay t) ∨
      (s' = nextTick (t.setHolding c stay) ∧
        Busy (t.setHolding c stay) c ∧ Inv stay [] t) := by
  have notFreed : (s.procs c).status ≠ .exit := by
    intro freed
    simp [OsPAs.Sched.execute, isCurrent, freed] at executedEq
  rcases carries.execute contract dispatched isCurrent notFreed with
    ⟨_, failed⟩ | ⟨stay, t, ⟨ran, refused⟩ | ⟨ran, busy⟩⟩
  · simp [failed] at executedEq
  · exact ⟨stay, t, Or.inl
      ⟨Except.ok.inj (executedEq.symm.trans ran), refused⟩⟩
  · exact ⟨stay, t, Or.inr ⟨Except.ok.inj (executedEq.symm.trans ran), busy⟩⟩

/-- Nothing needs to be carried. -/
theorem carries_nothing (sched : Scheduler n) (s : Sim n) (c : Fin n) :
    Carries sched False s c (fun _ _ _ => True) (fun _ _ => True)
      (fun _ _ _ => True) where
  start := trivial
  skip := fun _ _ _ _ _ _ _ => trivial
  grant := fun _ _ _ _ _ _ _ _ _ _ _ _ => trivial
  refuse := fun _ _ _ _ _ _ _ _ _ _ _ _ => trivial
  turn := fun _ _ _ _ _ => trivial
  owns := fun _ _ _ _ _ _ _ => False.elim
  keep := fun _ _ _ _ _ _ _ => trivial
  drop := fun _ _ _ _ _ _ _ _ _ _ _ => trivial

/-- An idle tick. -/
theorem execute_of_idle (sched : Scheduler n) {s : Sim n} (isCurrent : s.current = none) :
    execute sched s = .ok (nextTick (s.print .idle)) := by
  simp only [execute, isCurrent]

theorem runner_of_idle {s : Sim n} (isCurrent : s.current = none) :
    runner (nextTick (s.print .idle)) = none := by
  simp [runner, nextTick, isCurrent]

theorem Dispatched.idle {s : Sim n} (dispatched : Dispatched s)
    (isCurrent : s.current = none) : Sound (nextTick (s.print .idle)) where
  linked := by
    have linked := dispatched.linked
    rw [isCurrent] at linked
    rw [runner_of_idle isCurrent]
    exact (linked.print .idle).nextTick
  active := fun p ran => absurd ran (dispatched.resting p)
  current := fun c other => by
    change s.current = some c at other
    simp [isCurrent] at other
  known := dispatched.known

/-- The second half of a pass fails an assertion, uses a freed process, or
leaves a sound state. -/
theorem Dispatched.execute (contract : Contract live guard sched) {s : Sim n}
    (dispatched : Dispatched s) :
    (∃ s', execute sched s = .ok s' ∧ Sound s') ∨
      OsPAs.Sched.execute sched s = .error .assertFailed ∨
      OsPAs.Sched.execute sched s = .error .useAfterFree ∧
        ∃ c, s.current = some c ∧ (s.procs c).status = .exit := by
  cases isCurrent : s.current with
  | none =>
      exact Or.inl ⟨_, execute_of_idle sched isCurrent, dispatched.idle isCurrent⟩
  | some c =>
      by_cases freed : (s.procs c).status = .exit
      · refine Or.inr (Or.inr ⟨?_, c, rfl, freed⟩)
        simp only [OsPAs.Sched.execute, isCurrent, if_pos freed]
      · rcases (carries_nothing sched s c).execute contract dispatched isCurrent
            freed with ⟨_, failed⟩ | ⟨stay, t, refused | ran⟩
        · exact Or.inr (Or.inl failed)
        · exact Or.inl ⟨_, refused.1, refused.2.1.sound⟩
        · exact Or.inl ⟨_, ran.1, ran.2.1.sound⟩

theorem Dispatched.sound (contract : Contract live guard sched) {s s' : Sim n}
    (dispatched : Dispatched s)
    (executedEq : OsPAs.Sched.execute sched s = .ok s') : Sound s' := by
  rcases dispatched.execute contract with ⟨_, eq, sound⟩ | failed | ⟨failed, _⟩
  · obtain rfl := Except.ok.inj (executedEq.symm.trans eq)
    exact sound
  · simp [executedEq] at failed
  · simp [executedEq] at failed

end Contract

/-! ### What a turn leaves alone -/

/-- The two states agree on who owns and awaits what, on all priorities, and on what
the script fixes: the callbacks for resources apart, a tick changes nothing of
these. -/
structure Steady (s s' : Sim n) : Prop where
  owner : s'.owner = s.owner
  waitqueue : s'.waitqueue = s.waitqueue
  prio : ∀ p, (s'.procs p).prio = (s.procs p).prio
  prioOrig : ∀ p, (s'.procs p).prioOrig = (s.procs p).prioOrig
  lifespan : ∀ p, (s'.procs p).lifespan = (s.procs p).lifespan
  startsAt : ∀ p, (s'.procs p).startsAt = (s.procs p).startsAt

namespace Steady

variable {s s' s'' : Sim n}

theorem trans (first : Steady s s') (second : Steady s' s'') : Steady s s'' :=
  ⟨second.owner.trans first.owner, second.waitqueue.trans first.waitqueue,
    fun p => (second.prio p).trans (first.prio p),
    fun p => (second.prioOrig p).trans (first.prioOrig p),
    fun p => (second.lifespan p).trans (first.lifespan p),
    fun p => (second.startsAt p).trans (first.startsAt p)⟩

/-- An update of status, age and entries of one process. -/
theorem modify (s : Sim n) (p : Fin n) {change : Process → Process}
    (keeps : ∀ process, ∃ status age wants holds, change process =
      { process with
        status := status
        age := age
        resourcesToAcquire := wants
        resourcesHolding := holds }) : Steady s (s.modify p change) := by
  have procs (q : Fin n) : ∃ status age wants holds, (s.modify p change).procs q =
      { s.procs q with
        status := status
        age := age
        resourcesToAcquire := wants
        resourcesHolding := holds } := by
    rw [Sim.modify_procs]
    split
    · rename_i same
      rw [same]
      exact keeps _
    · exact ⟨_, _, _, _, rfl⟩
  refine ⟨rfl, rfl, fun q => ?_, fun q => ?_, fun q => ?_, fun q => ?_⟩
  all_goals
    obtain ⟨_, _, _, _, eq⟩ := procs q
    rw [eq]

theorem print (s : Sim n) (event : Event n) : Steady s (s.print event) :=
  ⟨rfl, rfl, fun _ => rfl, fun _ => rfl, fun _ => rfl, fun _ => rfl⟩

theorem nextTick (s : Sim n) : Steady s (nextTick s) :=
  ⟨rfl, rfl, fun _ => rfl, fun _ => rfl, fun _ => rfl, fun _ => rfl⟩

theorem setStatus (s : Sim n) (p : Fin n) (status : ProcessStatus) :
    Steady s (s.setStatus p status) :=
  modify s p fun _ => ⟨_, _, _, _, rfl⟩

theorem hold (s : Sim n) (c : Fin n) (rs : ResourceSchedule) :
    Steady s (s.hold c rs) :=
  modify s c fun _ => ⟨_, _, _, _, rfl⟩

theorem setToAcquire (s : Sim n) (c : Fin n) (stay : List ResourceSchedule) :
    Steady s (s.setToAcquire c stay) :=
  modify s c fun _ => ⟨_, _, _, _, rfl⟩

theorem setHolding (s : Sim n) (c : Fin n) (stay : List ResourceSchedule) :
    Steady s (s.setHolding c stay) :=
  modify s c fun _ => ⟨_, _, _, _, rfl⟩

theorem growOlder (s : Sim n) (c : Fin n) : Steady s (growOlder c s) :=
  modify s c fun _ => ⟨_, _, _, _, rfl⟩

end Steady

/-! ### What the script fixes -/

/-- The parts of the processes that the script fixes for good. -/
structure SameScript (s s' : Sim n) : Prop where
  lifespan : ∀ p, (s'.procs p).lifespan = (s.procs p).lifespan
  prioOrig : ∀ p, (s'.procs p).prioOrig = (s.procs p).prioOrig
  startsAt : ∀ p, (s'.procs p).startsAt = (s.procs p).startsAt

theorem Steady.script {s s' : Sim n} (steady : Steady s s') : SameScript s s' :=
  ⟨steady.lifespan, steady.prioOrig, steady.startsAt⟩

namespace SameScript

variable {s s' s'' : Sim n} {c : Fin n} {r : Fin nrResources}

theorem refl (s : Sim n) : SameScript s s :=
  ⟨fun _ => rfl, fun _ => rfl, fun _ => rfl⟩

theorem trans (first : SameScript s s') (second : SameScript s' s'') :
    SameScript s s'' :=
  ⟨fun p => (second.lifespan p).trans (first.lifespan p),
    fun p => (second.prioOrig p).trans (first.prioOrig p),
    fun p => (second.startsAt p).trans (first.startsAt p)⟩

/-- An update of priority, status, age and entries. -/
theorem of_procs
    (procs : ∀ p, ∃ k status age wants holds, s'.procs p =
      { s.procs p with
        prio := k
        status := status
        age := age
        resourcesToAcquire := wants
        resourcesHolding := holds }) : SameScript s s' := by
  refine ⟨fun p => ?_, fun p => ?_, fun p => ?_⟩
  · obtain ⟨k, status, age, wants, holds, eq⟩ := procs p
    rw [eq]
  · obtain ⟨k, status, age, wants, holds, eq⟩ := procs p
    rw [eq]
  · obtain ⟨k, status, age, wants, holds, eq⟩ := procs p
    rw [eq]

theorem granted (move : Requested s c r true s') : SameScript s s' :=
  of_procs fun p => by
    obtain ⟨k, eq⟩ := move.procs_granted p
    exact ⟨k, _, _, _, _, eq⟩

theorem refused (move : Requested s c r false s') : SameScript s s' :=
  of_procs fun p => by
    obtain ⟨k, eq⟩ := move.procs_refused p
    exact ⟨k, _, _, _, _, eq⟩

theorem released (move : Released s c r s') : SameScript s s' :=
  of_procs fun p => by
    obtain ⟨k, status, eq, _⟩ := move.procs p
    exact ⟨k, status, _, _, _, eq⟩

/-- No tick changes what the script fixes. -/
theorem carries (sched : Scheduler n) (s : Sim n) (c : Fin n) :
    Carries sched False s c (fun _ _ t => SameScript s t)
      (fun _ t => SameScript s t) (fun _ _ t => SameScript s t) where
  start := (Steady.setStatus s c .running).script
  skip := fun _ _ _ _ _ same _ => same
  grant := fun _ rs _ _ _ t' _ same _ _ _ move =>
    (same.trans (granted move)).trans ((Steady.hold t' c rs).trans (.print _ _)).script
  refuse := fun _ _ _ _ _ _ _ same _ _ _ move =>
    (same.trans (refused move)).trans (Steady.print _ _).script
  turn := fun stay t _ same _ =>
    same.trans (((Steady.setToAcquire t c stay).trans (.print _ _)).trans
      (.growOlder _ c)).script
  owns := fun _ _ _ _ _ _ _ => False.elim
  keep := fun _ _ _ _ _ same _ => same
  drop := fun _ _ _ _ _ _ _ same _ _ move =>
    (same.trans (released move)).trans (Steady.print _ _).script

section Contract

variable {live : Prop} {guard : Sim n → Prop} {sched : Scheduler n}

theorem dispatched (contract : Contract live guard sched) (sound : Sound s)
    (guarded : guard (forkOnSchedule s))
    (dispatchedEq : dispatch sched s = .ok s') : SameScript s s' := by
  obtain ⟨next, chosen, _, choice, _, retired⟩ :=
    sound.dispatched_cases contract guarded dispatchedEq
  refine of_procs fun p => ?_
  obtain ⟨status, eq⟩ := retired.procs p
  obtain ⟨k, eqChosen⟩ := choice.procs p
  change s'.procs p = { chosen.procs p with status := status } at eq
  rw [eqChosen, sound.forked.procs] at eq
  exact ⟨k, status, _, _, _, eq⟩

theorem executed (contract : Contract live guard sched)
    (dispatched : Dispatched s) (executedEq : execute sched s = .ok s') :
    SameScript s s' := by
  cases isCurrent : s.current with
  | none =>
      obtain rfl := Except.ok.inj
        ((execute_of_idle sched isCurrent).symm.trans executedEq)
      exact ((Steady.print s .idle).trans (.nextTick _)).script
  | some c =>
      obtain ⟨stay, t, ⟨rfl, _, same⟩ | ⟨rfl, _, same⟩⟩ :=
        (carries sched s c).executed contract dispatched isCurrent executedEq
      · exact same.trans ((Steady.setToAcquire t c stay).trans (.nextTick _)).script
      · exact same.trans ((Steady.setHolding t c stay).trans (.nextTick _)).script

end Contract

end SameScript

end OsPAs.Sched
