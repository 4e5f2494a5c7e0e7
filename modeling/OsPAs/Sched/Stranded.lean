/-
Module: OsPAs.Sched.Stranded
Purpose: Deadlocks are for ever.  Processes that wait for each other, or through
  others for processes that do, never run again, and as soon as the processor
  idles everybody there has been left behind in this way.
Trusted boundary: none
Main exports: WaitsWithin, Frozen, Serves.frozen, deadlock_is_permanent,
  PassOf.waitsWithin_of_idle, idling_strands_everybody
-/
import OsPAs.Sched.Wakeups

namespace OsPAs.Sched

open Lib

variable {n : Nat}

/-! ### Sets that wait for themselves -/

/-- Everybody in the set waits for a resource of somebody in it. -/
def WaitsWithin (stuck : Fin n → Prop) (s : Sim n) : Prop :=
  ∀ p, stuck p → ∃ q, stuck q ∧ WaitsForOwner s p q

/-- From state `s` to state `t` nothing has happened to the processes in the
set: they have the same entries, and wait for each other as they did. -/
structure Frozen (stuck : Fin n → Prop) (s t : Sim n) : Prop where
  entries : ∀ p, stuck p → SameEntries (s.procs p) (t.procs p)
  waiting : ∀ p r owner, stuck p → stuck owner → p ∈ s.waitqueue r →
    s.owner r = some owner → p ∈ t.waitqueue r ∧ t.owner r = some owner

section Moves

variable {stuck : Fin n → Prop} {s t t' : Sim n} {c : Fin n}
  {r : Fin nrResources}

theorem Frozen.refl (stuck : Fin n → Prop) (s : Sim n) : Frozen stuck s s where
  entries := fun _ _ => ⟨rfl, rfl, rfl⟩
  waiting := fun _ _ _ _ _ isWaiting owns => ⟨isWaiting, owns⟩

theorem SameEntries.trans {a b c : Process} (first : SameEntries a b)
    (second : SameEntries b c) : SameEntries a c :=
  ⟨second.age.trans first.age, second.wants.trans first.wants,
    second.holds.trans first.holds⟩

theorem Frozen.trans (first : Frozen stuck s t) (second : Frozen stuck t t') :
    Frozen stuck s t' where
  entries := fun p isStuck =>
    (first.entries p isStuck).trans (second.entries p isStuck)
  waiting := fun p r owner isStuck ownerStuck isWaiting owns => by
    obtain ⟨isWaiting', owns'⟩ :=
      first.waiting p r owner isStuck ownerStuck isWaiting owns
    exact second.waiting p r owner isStuck ownerStuck isWaiting' owns'

/-- The set goes on waiting for itself. -/
theorem Frozen.waitsWithin (frozen : Frozen stuck s t)
    (within : WaitsWithin stuck s) : WaitsWithin stuck t := by
  intro p isStuck
  obtain ⟨q, ownerStuck, r, isWaiting, owns⟩ := within p isStuck
  exact ⟨q, ownerStuck, r,
    frozen.waiting p r q isStuck ownerStuck isWaiting owns⟩

theorem Frozen.of_same (entries : ∀ p, SameEntries (s.procs p) (t.procs p))
    (waitqueue : t.waitqueue = s.waitqueue) (owner : t.owner = s.owner) :
    Frozen stuck s t where
  entries := fun p _ => entries p
  waiting := fun p r q _ _ isWaiting owns => by
    rw [waitqueue, owner]
    exact ⟨isWaiting, owns⟩

theorem Frozen.print (frozen : Frozen stuck s t) (event : Event n) :
    Frozen stuck s (t.print event) :=
  frozen.trans (.of_same (fun _ => ⟨rfl, rfl, rfl⟩) rfl rfl)

theorem Frozen.nextTick (frozen : Frozen stuck s t) :
    Frozen stuck s (nextTick t) :=
  frozen.trans (.of_same (fun _ => ⟨rfl, rfl, rfl⟩) rfl rfl)

/-- What happens to process `c` only does not happen to the set. -/
theorem Frozen.modify (frozen : Frozen stuck s t) (free : ¬ stuck c)
    (change : Process → Process) : Frozen stuck s (t.modify c change) := by
  refine frozen.trans ⟨fun p isStuck => ?_, fun _ _ _ _ _ isWaiting owns =>
    ⟨isWaiting, owns⟩⟩
  have other : p ≠ c := by
    rintro rfl
    exact free isStuck
  rw [Sim.modify_of_ne t other change]
  exact ⟨rfl, rfl, rfl⟩

/-- A request touches no resource that has an owner. -/
theorem Requested.frozen {granted : Bool} (move : Requested t c r granted t') :
    Frozen stuck t t' where
  entries := fun p _ => by
    cases granted with
    | true =>
        obtain ⟨k, eq⟩ := move.procs_granted p
        exact ⟨by rw [eq], by rw [eq], by rw [eq]⟩
    | false =>
        obtain ⟨k, eq⟩ := move.procs_refused p
        exact ⟨by rw [eq], by rw [eq], by rw [eq]⟩
  waiting := fun p i owner _ _ isWaiting owns => by
    cases granted with
    | true =>
        rw [move.waitqueue_granted, move.owner_granted]
        refine ⟨isWaiting, ?_⟩
        rw [Function.update_of_ne, owns]
        rintro rfl
        simp [move.free] at owns
    | false =>
        rw [move.owner_refused]
        exact ⟨move.mem_waitqueue_refused.mpr (Or.inl isWaiting), owns⟩

/-- A release of `c` touches no resource of the set. -/
theorem Released.frozen (free : ¬ stuck c) (move : Released t c r t') :
    Frozen stuck t t' where
  entries := fun p _ => by
    obtain ⟨k, status, eq, _⟩ := move.procs p
    exact ⟨by rw [eq], by rw [eq], by rw [eq]⟩
  waiting := fun p i owner _ ownerStuck isWaiting owns => by
    have other : i ≠ r := by
      rintro rfl
      obtain rfl := Option.some.inj (owns.symm.trans move.owned)
      exact free ownerStuck
    rw [move.waitqueue_of_ne other, move.owner, Function.update_of_ne other]
    exact ⟨isWaiting, owns⟩

/-- What is carried through a tick of a process outside the set. -/
theorem frozen_carries (sched : Scheduler n) (free : ¬ stuck c) :
    Carries sched False s c (fun _ _ t => Frozen stuck s t)
      (fun _ t => Frozen stuck s t) (fun _ _ t => Frozen stuck s t) where
  start := (Frozen.refl stuck s).modify free _
  skip := fun _ _ _ _ _ frozen _ => frozen
  grant := fun _ _ _ _ _ _ _ frozen _ _ _ move =>
    ((frozen.trans move.frozen).modify free _).print _
  refuse := fun _ _ _ _ _ _ _ frozen _ _ _ move =>
    (frozen.trans move.frozen).print _
  turn := fun _ _ _ frozen _ =>
    ((frozen.modify free _).print _).modify free _
  owns := fun _ _ _ _ _ _ _ => False.elim
  keep := fun _ _ _ _ _ frozen _ => frozen
  drop := fun _ _ _ _ _ _ _ frozen _ _ move =>
    (frozen.trans (move.frozen free)).print _

/-- Processes that wait, through whatever chain, for a process on a cycle wait
within themselves. -/
theorem waitsWithin_leadsToCycle (s : Sim n) :
    WaitsWithin (LeadsToCycle (WaitsForOwner s)) s := by
  intro p leads
  obtain ⟨owner, waits, ownerLeads⟩ := leads.next
  exact ⟨owner, ownerLeads, waits⟩

theorem Frozen.leadsToCycle
    (frozen : Frozen (LeadsToCycle (WaitsForOwner s)) s t) {p : Fin n}
    (leads : LeadsToCycle (WaitsForOwner s) p) :
    LeadsToCycle (WaitsForOwner t) p := by
  refine leads.mono fun q owner qLeads ownerLeads waits => ?_
  obtain ⟨r, isWaiting, owns⟩ := waits
  exact ⟨r, frozen.waiting q r owner qLeads ownerLeads isWaiting owns⟩

end Moves

/-! ### Runs -/

section Runs

variable {script : List ProcessBlock} {guard : Sim script.length → Prop}
  {sched : Scheduler script.length} {k : Nat} {s mid s' : Sim script.length}
  {stuck : Fin script.length → Prop}

/-- Who waits for itself is asleep. -/
theorem WaitsWithin.blocked {run : Option (Fin script.length)}
    (within : WaitsWithin stuck s) (linked : Linked s run)
    {p : Fin script.length} (isStuck : stuck p) : isBlocked s p := by
  obtain ⟨_, _, r, isWaiting, _⟩ := within p isStuck
  exact linked.waiting p r isWaiting

/-- The first half of a pass. -/
theorem Dispatching.frozen (dispatching : Dispatching s mid) :
    Frozen stuck s mid :=
  .of_same dispatching.entries dispatching.waitqueue dispatching.owner

/-- The second half of a pass. -/
theorem PassOf.frozen (serves : Serves script guard sched)
    (pass : PassOf script sched k s mid) (within : WaitsWithin stuck mid)
    (executedEq : execute sched mid = .ok s') : Frozen stuck mid s' := by
  cases isCurrent : mid.current with
  | none =>
      obtain rfl := Except.ok.inj
        ((execute_of_idle sched isCurrent).symm.trans executedEq)
      exact .of_same (fun _ => ⟨rfl, rfl, rfl⟩) rfl rfl
  | some c =>
      have free : ¬ stuck c := fun isStuck =>
        pass.prepared.dispatched.linked.runs c isCurrent
          (within.blocked pass.prepared.dispatched.linked isStuck)
      obtain ⟨stay, t, ⟨rfl, _, frozen⟩ | ⟨rfl, _, frozen⟩⟩ :=
        (frozen_carries sched free).executed serves.contract
          pass.prepared.dispatched isCurrent executedEq
      · exact (frozen.modify free _).nextTick
      · exact (frozen.modify free _).nextTick

/-- Nothing ever happens to a set that waits for itself. -/
theorem Serves.frozen (serves : Serves script guard sched)
    (reached : doSimulation script sched k = .ok (.again s))
    (within : WaitsWithin stuck s) {j : Nat} (le : k ≤ j)
    (later : doSimulation script sched j = .ok (.again s')) :
    Frozen stuck s s' := by
  induction j, le using Nat.le_induction generalizing s' with
  | base =>
      obtain rfl := Pass.again.inj (Except.ok.inj (reached.symm.trans later))
      exact .refl stuck s
  | succ j _ inductionHypothesis =>
      obtain ⟨top, topReached, ran⟩ := iterate_succ_again later
      have before := inductionHypothesis topReached
      obtain ⟨mid, pass⟩ := serves.pass topReached
      have halfway := before.trans pass.dispatching.frozen
      rcases pass.ends with ⟨_, ended⟩ | ⟨_, s'', executedEq, ended⟩
      · simp [later] at ended
      · obtain rfl := Pass.again.inj (Except.ok.inj (ended.symm.trans later))
        exact halfway.trans
          (pass.frozen serves (halfway.waitsWithin within) executedEq)

/-- And nobody in it ever exits. -/
theorem Serves.never_exits (serves : Serves script guard sched)
    (reached : doSimulation script sched k = .ok (.again s))
    (within : WaitsWithin stuck s) {j : Nat} {final : Sim script.length}
    (left : doSimulation script sched j = .ok (.leave final))
    {p : Fin script.length} (isStuck : stuck p) :
    (final.procs p).status ≠ .exit := by
  obtain ⟨i, top, _, topReached, ran⟩ := iterate_leave left
  have le : k ≤ i := by
    by_contra before
    have ended : doSimulation script sched (i + 1) = .ok (.leave final) :=
      (iterate_succ_of_again topReached).trans ran
    have gone := iterate_leave_of_le ended (Nat.lt_of_not_le before)
    simp [doSimulation, gone] at reached
  obtain ⟨dispatchedEq, _⟩ := body_leave ran
  obtain ⟨mid, pass⟩ := serves.pass topReached
  obtain rfl := Except.ok.inj (dispatchedEq.symm.trans pass.dispatchedEq)
  have frozen := (serves.frozen reached within le topReached).trans
    pass.dispatching.frozen
  have asleep := (frozen.waitsWithin within).blocked
    pass.prepared.dispatched.linked isStuck
  unfold isBlocked at asleep
  simp [asleep]

end Runs

/-- A deadlock is permanent.  Take any tick of a run of a status-aware policy on
a well-formed script, and a process that waits, directly or through others, for
a process on a cycle of waiting.  At the end of every later tick it still waits
in this way, blocked, at the same age and with the same entries, and when the
loop is left it has not exited. -/
theorem deadlock_is_permanent (script : List ProcessBlock) (policy : Policy)
    (aware : policy ∈ statusAware) (wellFormed : WellFormed script) (k : Nat)
    (s : Sim script.length)
    (reached : doSimulation script policy.scheduler k = .ok (.again s))
    (p : Fin script.length) (leads : LeadsToCycle (WaitsForOwner s) p) :
    (∀ j ≥ k, ∀ s', doSimulation script policy.scheduler j = .ok (.again s') →
      LeadsToCycle (WaitsForOwner s') p ∧ isBlocked s' p ∧
        SameEntries (s.procs p) (s'.procs p)) ∧
    ∀ j final, doSimulation script policy.scheduler j = .ok (.leave final) →
      (final.procs p).status ≠ .exit := by
  have serves := Policy.serves aware wellFormed
  have within := waitsWithin_leadsToCycle s
  refine ⟨fun j le s' later => ?_, fun j final left => ?_⟩
  · have frozen := serves.frozen reached within le later
    obtain ⟨settled, _, _⟩ := serves.settled later
    exact ⟨frozen.leadsToCycle leads,
      (frozen.waitsWithin within).blocked settled.sound.linked leads,
      frozen.entries p leads⟩
  · exact serves.never_exits reached within left leads

instance (s : Sim n) (p q : Fin n) : Decidable (WaitsForOwner s p q) :=
  inferInstanceAs (Decidable (∃ _, _ ∧ _))

/-- In the fifth pass of the two processes that take their resources in opposite
orders each waits for the other. -/
theorem deadlock_is_permanent_oppositeOrders :
    ∃ s, doSimulation oppositeOrders prioScheduler 4 = .ok (.again s) ∧
      ∃ p, LeadsToCycle (WaitsForOwner s) p ∧
        (∀ j ≥ 4, ∀ s',
          doSimulation oppositeOrders prioScheduler j = .ok (.again s') →
            LeadsToCycle (WaitsForOwner s') p ∧ isBlocked s' p ∧
              SameEntries (s.procs p) (s'.procs p)) ∧
        ∀ j final,
          doSimulation oppositeOrders prioScheduler j = .ok (.leave final) →
            (final.procs p).status ≠ .exit := by
  obtain ⟨s, reached, there, back⟩ := exists_of_againWith
    (fun s : Sim oppositeOrders.length =>
      WaitsForOwner s ⟨0, by decide⟩ ⟨1, by decide⟩ ∧
        WaitsForOwner s ⟨1, by decide⟩ ⟨0, by decide⟩)
    (doSimulation oppositeOrders prioScheduler 4) (by decide +kernel)
  have leads : LeadsToCycle (WaitsForOwner s) ⟨0, by decide⟩ :=
    ⟨_, .refl, .tail (.single there) back⟩
  exact ⟨s, reached, _, leads, deadlock_is_permanent oppositeOrders .prio
    (by decide) (by decide) 4 s reached _ leads⟩

/-! ### Idle ticks -/

section Idle

variable {script : List ProcessBlock} {guard : Sim script.length → Prop}
  {sched : Scheduler script.length} {k : Nat} {s mid : Sim script.length}

/-- Process `p` has been forked by pass `k` and has not exited. -/
def Present (script : List ProcessBlock) (k : Nat) (s : Sim script.length)
    (p : Fin script.length) : Prop :=
  startOf script p ≤ k ∧ (s.procs p).status ≠ .exit

/-- In a pass that idles everybody present waits for somebody present. -/
theorem PassOf.waitsWithin_of_idle (serves : Serves script guard sched)
    (reached : doSimulation script sched k = .ok (.again s))
    (pass : PassOf script sched k s mid) (isIdle : mid.current = none) :
    WaitsWithin (Present script k mid) mid := by
  obtain ⟨roused, forked⟩ := serves.roused reached
  have rousedMid : Roused anyone mid :=
    roused.dispatched pass.dispatching fun _ _ _ _ _ => id
  have forkedMid : ForkedOwners mid :=
    forked.congr pass.dispatching.owner pass.dispatching.forkqueue_subset
  have awaited := (serves.timed reached).awaited_dispatch pass.dispatching
  have asleep {p : Fin script.length} (unlisted : p ∉ mid.forkqueue)
      (present : (mid.procs p).status ≠ .exit) : ∃ r, p ∈ mid.waitqueue r := by
    have one := pass.prepared.whole.accounted p present
    unfold tally at one
    rw [isIdle, pass.idle isIdle, List.count_eq_zero_of_not_mem unlisted] at one
    by_contra nowhere
    have zero := occurrences_eq_zero.mpr (not_exists.mp nowhere)
    simp [zero] at one
  rintro p ⟨started, present⟩
  have isForked : p ∉ mid.forkqueue := by
    rw [awaited]
    omega
  obtain ⟨r, isWaiting⟩ := asleep isForked present
  cases owns : mid.owner r with
  | some owner =>
      refine ⟨owner, ⟨?_, pass.prepared.owner_present pass.fitting owns⟩, r,
        isWaiting, owns⟩
      have ownerForked := forkedMid r owner owns
      rw [awaited] at ownerForked
      omega
  | none =>
      -- whoever was woken for the resource would be ready
      exfalso
      obtain ⟨q, awake, qForked, due, _⟩ := rousedMid r p isWaiting owns
      obtain ⟨i, member⟩ :=
        asleep qForked (pass.prepared.due_present pass.fitting due)
      exact awake (pass.prepared.dispatched.linked.waiting q i member)

end Idle

/-- As soon as the processor idles, everybody who is there has been left behind.
In a pass of a status-aware policy on a well-formed script that finds nobody to
run, every process that has been forked has exited, or it waits, directly or
through others, for a process on a cycle of waiting; then it stays blocked, at
the same age and with the same entries, at the end of every later tick, and has
not exited when the loop is left. -/
theorem idling_strands_everybody (script : List ProcessBlock) (policy : Policy)
    (aware : policy ∈ statusAware) (wellFormed : WellFormed script) (k : Nat)
    (s mid : Sim script.length)
    (reached : doSimulation script policy.scheduler k = .ok (.again s))
    (dispatchedEq : dispatch policy.scheduler s = .ok mid)
    (isIdle : mid.current = none) (p : Fin script.length)
    (started : startOf script p ≤ k) :
    (mid.procs p).status = .exit ∨
      LeadsToCycle (WaitsForOwner mid) p ∧
        (∀ j > k, ∀ s',
          doSimulation script policy.scheduler j = .ok (.again s') →
            isBlocked s' p ∧ SameEntries (mid.procs p) (s'.procs p)) ∧
        ∀ j final, doSimulation script policy.scheduler j = .ok (.leave final) →
          (final.procs p).status ≠ .exit := by
  have serves := Policy.serves aware wellFormed
  obtain ⟨mid', pass⟩ := serves.pass reached
  obtain rfl := Except.ok.inj (pass.dispatchedEq.symm.trans dispatchedEq)
  by_cases exited : (mid'.procs p).status = .exit
  · exact Or.inl exited
  have present : Present script k mid' p := ⟨started, exited⟩
  have within := pass.waitsWithin_of_idle serves reached isIdle
  refine Or.inr ⟨?_, ?_⟩
  · obtain ⟨b, _, chain, round⟩ := reaches_cycle within present
    exact ⟨b, chain, round⟩
  rcases pass.ends with ⟨_, left⟩ | ⟨_, s', executedEq, next⟩
  · refine ⟨fun j later s' again => ?_, fun j final leaves => ?_⟩
    · have gone := iterate_leave_of_le left later
      simp [doSimulation, gone] at again
    · rcases Nat.le_total j (k + 1) with le | le
      · have same := (iterate_leave_of_le leaves le).symm.trans left
        obtain rfl := Pass.leave.inj (Except.ok.inj same)
        exact exited
      · have same := (iterate_leave_of_le left le).symm.trans leaves
        obtain rfl := Pass.leave.inj (Except.ok.inj same)
        exact exited
  · have frozen := pass.frozen serves within executedEq
    have withinNext := frozen.waitsWithin within
    refine ⟨fun j later t again => ?_, fun j final leaves =>
      serves.never_exits next withinNext leaves present⟩
    have settled := (serves.settled again).1
    have onwards := frozen.trans (serves.frozen next withinNext later again)
    exact ⟨(onwards.waitsWithin within).blocked settled.sound.linked present,
      onwards.entries p present⟩

/-- Two processes that take resources 1 and 2 in opposite orders, and a third
one that comes long after. -/
def lateComer : List ProcessBlock :=
  [{ pid := 1, start := 0, lifespan := 4
     acquires := [⟨1, 0, 3⟩, ⟨2, 1, 2⟩] },
   { pid := 2, start := 1, lifespan := 4, prio := 5
     acquires := [⟨2, 0, 2⟩, ⟨1, 1, 1⟩] },
   { pid := 3, start := 9, lifespan := 2 }]

/-- From the sixth pass on the processor idles, and the first two are lost. -/
theorem idling_strands_everybody_lateComer :
    ∃ s mid, doSimulation lateComer prioScheduler 5 = .ok (.again s) ∧
      dispatch prioScheduler s = .ok mid ∧ mid.current = none ∧
      ∃ p, LeadsToCycle (WaitsForOwner mid) p ∧
        (∀ j > 5, ∀ s', doSimulation lateComer prioScheduler j =
          .ok (.again s') → isBlocked s' p ∧
            SameEntries (mid.procs p) (s'.procs p)) ∧
        ∀ j final, doSimulation lateComer prioScheduler j =
          .ok (.leave final) → (final.procs p).status ≠ .exit := by
  obtain ⟨s, reached, halfway⟩ := exists_of_againWith
    (fun s : Sim lateComer.length => okWith
      (fun mid => mid.current = none ∧
        (mid.procs ⟨0, by decide⟩).status ≠ .exit)
      (dispatch prioScheduler s) = true)
    (doSimulation lateComer prioScheduler 5) (by decide +kernel)
  obtain ⟨mid, dispatchedEq, isIdle, present⟩ := exists_of_okWith _ _ halfway
  refine ⟨s, mid, reached, dispatchedEq, isIdle, ⟨0, by decide⟩, ?_⟩
  exact (idling_strands_everybody lateComer .prio (by decide) (by decide) 5 s mid
    reached dispatchedEq isIdle ⟨0, by decide⟩ (by decide)).resolve_left present

end OsPAs.Sched
