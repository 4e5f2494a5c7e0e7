/-
Module: OsPAs.Sched.Wakeups
Purpose: No wakeup is lost.  A resource that has waiters but no owner was
  released to a process that has been forked, is awake and is about to ask for
  it, and that the waiters may be made to wait for.
Trusted boundary: none
Main exports: Roused, Roused.granted, Roused.refused, Roused.growOlder,
  Roused.released, ForkedOwners, Serves.roused, Serves.forkedOwners
-/
import OsPAs.Sched.Termination

namespace OsPAs.Sched

open Lib

variable {n : Nat}

/-- Whoever waits for a resource without an owner `yields` to somebody forked
and awake, who is about to ask for it. -/
def Roused (yields : Fin n → Fin n → Prop) (s : Sim n) : Prop :=
  ∀ r p, p ∈ s.waitqueue r → s.owner r = none →
    ∃ q, ¬ isBlocked s q ∧ q ∉ s.forkqueue ∧
      (s.procs q).firstDue = some r.val ∧ yields p q

section Moves

variable {yields yields' : Fin n → Fin n → Prop} {s s' : Sim n} {c : Fin n}
  {r : Fin nrResources} {kept rest : List ResourceSchedule}
  {rs : ResourceSchedule}

/-- A step that frees no resource, adds no waiter to a free one, and leaves
those alone who are about to ask for one. -/
theorem Roused.step (roused : Roused yields s)
    (free : ∀ r, s'.owner r = none →
      s.owner r = none ∧ s'.waitqueue r ⊆ s.waitqueue r)
    (stays : ∀ r q, s'.owner r = none → (s.procs q).firstDue = some r.val →
      ¬ isBlocked s q → q ∉ s.forkqueue → ¬ isBlocked s' q ∧
        q ∉ s'.forkqueue ∧ (s'.procs q).firstDue = some r.val)
    (weaken : ∀ r p q, p ∈ s.waitqueue r → s.owner r = none → yields p q →
      yields' p q) : Roused yields' s' := by
  intro r p isWaiting isFree
  obtain ⟨wasFree, subset⟩ := free r isFree
  have waited := subset isWaiting
  obtain ⟨q, awake, isForked, due, above⟩ := roused r p waited wasFree
  obtain ⟨awake', isForked', due'⟩ := stays r q isFree due awake isForked
  exact ⟨q, awake', isForked', due', weaken r p q waited wasFree above⟩

theorem Roused.congr (roused : Roused yields s)
    (owner : s'.owner = s.owner) (waitqueue : s'.waitqueue = s.waitqueue)
    (forkqueue : s'.forkqueue ⊆ s.forkqueue)
    (same : ∀ p, (s'.procs p).firstDue = (s.procs p).firstDue)
    (awake : ∀ p, ¬ isBlocked s p → ¬ isBlocked s' p)
    (weaken : ∀ r p q, p ∈ s.waitqueue r → s.owner r = none → yields p q →
      yields' p q) : Roused yields' s' := by
  refine roused.step (fun r isFree => ?_) (fun r q _ due wasAwake isForked => ?_)
    weaken
  · rw [owner] at isFree
    rw [waitqueue]
    exact ⟨isFree, List.Subset.refl _⟩
  · rw [same]
    exact ⟨awake q wasAwake, fun waits => isForked (forkqueue waits), due⟩

/-- A request of process `c` that leaves its resource with an owner: nobody
needs to be answered by `c` any more. -/
theorem Roused.asked (roused : Roused yields s)
    (due : (s.procs c).firstDue = some r.val) (taken : s'.owner r ≠ none)
    (owner : ∀ i, i ≠ r → s'.owner i = s.owner i)
    (waitqueue : ∀ i, i ≠ r → s'.waitqueue i = s.waitqueue i)
    (forkqueue : s'.forkqueue = s.forkqueue)
    (others : ∀ p, p ≠ c → ∃ k, s'.procs p = { s.procs p with prio := k })
    (weaken : ∀ r p q, p ∈ s.waitqueue r → s.owner r = none → yields p q →
      yields' p q) : Roused yields' s' := by
  have other (i : Fin nrResources) (isFree : s'.owner i = none) : i ≠ r := by
    rintro rfl
    exact taken isFree
  refine roused.step (fun i isFree => ?_) (fun i q isFree dueQ awake isForked => ?_)
    weaken
  · rw [waitqueue i (other i isFree), ← owner i (other i isFree)]
    exact ⟨isFree, List.Subset.refl _⟩
  · have notC : q ≠ c := by
      rintro rfl
      rw [due] at dueQ
      exact other i isFree (Fin.ext (Option.some.inj dueQ).symm)
    obtain ⟨k, eq⟩ := others q notC
    unfold isBlocked at awake ⊢
    rw [eq, forkqueue]
    exact ⟨awake, isForked, dueQ⟩

theorem firstDue_setToAcquire
    (notDue : ∀ rs ∈ kept, rs.atAge ≠ (s.procs c).age)
    (now : rs.atAge = (s.procs c).age) :
    ((s.setToAcquire c (kept ++ rs :: rest)).procs c).firstDue =
      some rs.resourceId := by
  rw [setToAcquire_procs]
  exact firstDue_of_due (if_pos rfl) notDue now

theorem Roused.granted
    (roused : Roused yields (s.setToAcquire c (kept ++ rs :: rest)))
    (notDue : ∀ rs ∈ kept, rs.atAge ≠ (s.procs c).age)
    (now : rs.atAge = (s.procs c).age) {inside : rs.resourceId < nrResources}
    (move : Requested s c ⟨rs.resourceId, inside⟩ true s') (event : Event n)
    (weaken : ∀ r p q, p ∈ s.waitqueue r → s.owner r = none → yields p q →
      yields' p q) :
    Roused yields'
      (((s'.hold c rs).print event).setToAcquire c (kept ++ rest)) := by
  refine roused.asked (r := ⟨rs.resourceId, inside⟩)
    (firstDue_setToAcquire notDue now) ?_ (fun i other => ?_) (fun i _ => ?_)
    move.queues_granted.1 (fun p other => ?_) weaken
  · change s'.owner _ ≠ none
    rw [move.owner_granted, Function.update_self]
    simp
  · change s'.owner i = s.owner i
    rw [move.owner_granted, Function.update_of_ne other]
  · change s'.waitqueue i = s.waitqueue i
    rw [move.waitqueue_granted]
  · obtain ⟨k, eq⟩ := move.procs_granted p
    refine ⟨k, ?_⟩
    rw [setToAcquire_procs, setToAcquire_procs, Sim.print_procs, hold_procs, eq]
    simp only [if_neg other]

theorem Roused.refused
    (roused : Roused yields (s.setToAcquire c (kept ++ rs :: rest)))
    (notDue : ∀ rs ∈ kept, rs.atAge ≠ (s.procs c).age)
    (now : rs.atAge = (s.procs c).age) {inside : rs.resourceId < nrResources}
    (move : Requested s c ⟨rs.resourceId, inside⟩ false s') (event : Event n)
    (weaken : ∀ r p q, p ∈ s.waitqueue r → s.owner r = none → yields p q →
      yields' p q) :
    Roused yields' ((s'.print event).setToAcquire c (kept ++ rs :: rest)) := by
  refine roused.asked (r := ⟨rs.resourceId, inside⟩)
    (firstDue_setToAcquire notDue now) ?_ (fun i _ => ?_) (fun i other => ?_)
    move.queues_refused.1 (fun p other => ?_) weaken
  · change s'.owner _ ≠ none
    rw [move.owner_refused]
    exact move.taken
  · change s'.owner i = s.owner i
    rw [move.owner_refused]
  · change s'.waitqueue i = s.waitqueue i
    rw [move.waitqueue_refused, Function.update_of_ne other]
  · obtain ⟨k, eq⟩ := move.procs_refused p
    refine ⟨k, ?_⟩
    rw [setToAcquire_procs, setToAcquire_procs, Sim.print_procs, eq]
    simp only [if_neg other]

/-- A process that is not about to ask for anything answers nobody. -/
theorem Roused.without (roused : Roused yields s)
    (notDue : (s.procs c).firstDue = none) :
    Roused (fun p q => yields p q ∧ q ≠ c) s := by
  intro r p isWaiting isFree
  obtain ⟨q, awake, isForked, due, above⟩ := roused r p isWaiting isFree
  refine ⟨q, awake, isForked, due, above, ?_⟩
  rintro rfl
  simp [notDue] at due

/-- Growing older does not matter once nothing is due any more. -/
theorem Roused.growOlder (roused : Roused yields s)
    (notDue : ∀ rs ∈ (s.procs c).resourcesToAcquire,
      rs.atAge ≠ (s.procs c).age) :
    Roused yields (growOlder c s) := by
  refine roused.step (fun i isFree => ⟨isFree, List.Subset.refl _⟩)
    (fun i q _ due awake isForked => ?_) (fun _ _ _ _ _ => id)
  have other : q ≠ c := by
    rintro rfl
    rw [firstDue_of_notDue notDue] at due
    simp at due
  refine ⟨?_, isForked, ?_⟩
  · unfold isBlocked at awake ⊢
    rwa [growOlder_procs]
  · rw [growOlder_procs]
    simpa only [if_neg other] using due

/-- A release hands its resource to the waiter that is woken. -/
theorem Roused.released (roused : Roused yields s) (waits : Waits s)
    (linked : Linked s (some c)) (move : Released s c r s')
    (weaken : ∀ r p q, p ∈ s.waitqueue r → s.owner r = none → yields p q →
      yields' p q)
    (woken : ∀ p w, p ∈ s'.waitqueue r → w ∈ s.waitqueue r →
      ¬ isBlocked s' w → yields' p w) : Roused yields' s' := by
  have dueOf (p : Fin n) : (s'.procs p).firstDue = (s.procs p).firstDue := by
    obtain ⟨k, status, eq, _⟩ := move.procs p
    rw [eq]
    rfl
  have forkqueue : s'.forkqueue = s.forkqueue := move.queues.1
  intro i p isWaiting isFree
  have waited := move.waitqueue_subset i isWaiting
  by_cases same : i = r
  · subst same
    cases move with
    | quiet prio owned nobody => simp [nobody] at waited
    | @wake w prio owned wasWaiting =>
        have awake : ¬ isBlocked
            (((s.setOwner i none).wake i w).withPrio prio) w := by
          simp [isBlocked, Sim.withPrio, Sim.wake, Sim.setStatus]
        refine ⟨w, awake, ?_, ?_, woken p w isWaiting wasWaiting awake⟩
        · intro unforked
          have ready := linked.forking w unforked
          have asleep := linked.waiting w i wasWaiting
          unfold isBlocked at asleep
          simp [ready] at asleep
        · rw [dueOf]
          exact waits.asks w i wasWaiting
  · rw [move.owner, Function.update_of_ne same] at isFree
    obtain ⟨q, awake, isForked, due, above⟩ := roused i p waited isFree
    refine ⟨q, ?_, by rwa [forkqueue], by rwa [dueOf],
      weaken i p q waited isFree above⟩
    obtain ⟨k, status, eq, kept | ⟨asleep, _⟩⟩ := move.procs q
    · unfold isBlocked at awake ⊢
      rw [eq, kept]
      exact awake
    · exact absurd asleep awake

end Moves

/-! ### Owners -/

/-- Nobody owns anything before being forked. -/
def ForkedOwners (s : Sim n) : Prop :=
  ∀ r p, s.owner r = some p → p ∉ s.forkqueue

section Owners

variable {s s' : Sim n} {c : Fin n} {r : Fin nrResources}

theorem ForkedOwners.congr (forked : ForkedOwners s) (owner : s'.owner = s.owner)
    (forkqueue : s'.forkqueue ⊆ s.forkqueue) : ForkedOwners s' := by
  intro r p owns unforked
  rw [owner] at owns
  exact forked r p owns (forkqueue unforked)

theorem ForkedOwners.granted (forked : ForkedOwners s) (loose : s.detached c)
    (move : Requested s c r true s') : ForkedOwners s' := by
  intro i p owns
  rw [move.queues_granted.1]
  rw [move.owner_granted, Function.update_apply] at owns
  by_cases same : i = r
  · rw [if_pos same] at owns
    exact Option.some.inj owns ▸ loose.1
  · rw [if_neg same] at owns
    exact forked i p owns

theorem ForkedOwners.released (forked : ForkedOwners s)
    (move : Released s c r s') : ForkedOwners s' := by
  intro i p owns
  rw [move.queues.1]
  exact forked i p (move.owner_of_owner owns)

end Owners

/-! ### Ticks and runs -/

/-- A relation between waiters and those they yield to that always holds. -/
def anyone (_ _ : Fin n) : Prop := True

/-- The state in which the chosen process begins to ask. -/
theorem Roused.started {yields yields' : Fin n → Fin n → Prop} {s : Sim n}
    (roused : Roused yields s) (c : Fin n)
    (weaken : ∀ r p q, p ∈ s.waitqueue r → s.owner r = none → yields p q →
      yields' p q) :
    Roused yields' ((s.setStatus c .running).setToAcquire c
      (s.procs c).resourcesToAcquire) := by
  refine roused.congr rfl rfl (List.Subset.refl _) (fun p => ?_)
    (fun p awake => ?_) weaken
  · rw [setToAcquire_procs, setStatus_procs]
    by_cases isC : p = c
    · subst isC; simp [Process.firstDue]
    · simp [isC, Process.firstDue]
  · unfold isBlocked at awake ⊢
    rw [setToAcquire_procs, setStatus_procs]
    by_cases isC : p = c
    · simp [isC]
    · simpa [isC] using awake

/-- What is carried through a tick of the chosen process besides the books. -/
theorem roused_carries {all : Fin n → List ResourceSchedule} {s : Sim n}
    {c : Fin n} (sched : Scheduler n) (roused : Roused anyone s)
    (forked : ForkedOwners s) (prepared : Prepared all s)
    (fitting : Fitting all s) (isCurrent : s.current = some c) :
    Carries sched True s c
      (fun kept todo t => Asking all s c kept todo t ∧
        Roused anyone (t.setToAcquire c (kept ++ todo)) ∧ ForkedOwners t)
      (fun stay t => TurnedDown all c stay t ∧
        Roused anyone (t.setToAcquire c stay) ∧ ForkedOwners t)
      (fun kept todo t => Releasing all s c kept todo t ∧ Roused anyone t ∧
        ForkedOwners t) := by
  apply (prepared.carries sched fitting isCurrent).alongside
  · exact ⟨roused.started c fun _ _ _ _ _ => id, forked⟩
  · intro kept rs rest t _ _ before _
    rwa [← List.append_cons]
  · intro kept rs rest t inside t' busy asking before now _ _ move
    obtain ⟨_, _, notDue, _⟩ := asking
    have forkedNow : ForkedOwners t' := before.2.granted busy.detached move
    exact ⟨before.1.granted notDue now move _ (fun _ _ _ _ _ => id), forkedNow⟩
  · intro kept rs rest t inside t' _ asking before now _ _ move
    obtain ⟨_, _, notDue, _⟩ := asking
    exact ⟨before.1.refused notDue now move _ (fun _ _ _ _ _ => id),
      before.2.congr move.owner_refused
        (move.queues_refused.1 ▸ List.Subset.refl _)⟩
  · intro stay t _ asking before _
    obtain ⟨_, _, notDue, _⟩ := asking
    rw [List.append_nil] at before
    refine ⟨Roused.growOlder (before.1.congr rfl rfl (List.Subset.refl _)
      (fun _ => rfl) (fun _ => id) (fun _ _ _ _ _ => id)) ?_, before.2⟩
    rw [Sim.print_procs, setToAcquire_procs]
    simpa using notDue
  · intro kept rs rest t _ _ before _
    exact before
  · intro kept rs rest t inside t' busy releasing before _ _ move _
    have rousedNow : Roused anyone t' := before.1.released releasing.2
      busy.linked move (fun _ _ _ _ _ => id) (fun _ _ _ _ _ => trivial)
    have forkedNow : ForkedOwners t' := before.2.released move
    exact ⟨rousedNow, forkedNow⟩

section Runs

variable {script : List ProcessBlock} {guard : Sim script.length → Prop}
  {sched : Scheduler script.length} {k : Nat} {s mid s' : Sim script.length}

theorem Dispatching.forkqueue_subset (dispatching : Dispatching s mid) :
    mid.forkqueue ⊆ s.forkqueue := by
  rw [dispatching.forkqueue]
  exact List.filter_subset_self _

/-- The first half of a pass loses no wakeup. -/
theorem Roused.dispatched {yields yields' : Fin script.length →
    Fin script.length → Prop} (roused : Roused yields s)
    (dispatching : Dispatching s mid)
    (weaken : ∀ r p q, p ∈ s.waitqueue r → s.owner r = none → yields p q →
      yields' p q) : Roused yields' mid := by
  refine roused.congr dispatching.owner dispatching.waitqueue
    dispatching.forkqueue_subset (fun p => ?_) dispatching.awake weaken
  have same := dispatching.entries p
  unfold Process.firstDue
  rw [same.wants, same.age]

/-- Between ticks no wakeup is lost. -/
theorem Serves.roused (serves : Serves script guard sched)
    (reached : doSimulation script sched k = .ok (.again s)) :
    Roused anyone s ∧ ForkedOwners s := by
  apply serves.invariant (fun _ s => Roused anyone s ∧ ForkedOwners s) _ _ reached
  · exact ⟨fun r p isWaiting => by simp [load] at isWaiting,
      fun r p owns => by simp [load] at owns⟩
  · rintro k s mid s' _ ⟨roused, forked⟩ pass _ executedEq _
    have rousedMid : Roused anyone mid :=
      roused.dispatched pass.dispatching fun _ _ _ _ _ => id
    have forkedMid : ForkedOwners mid :=
      forked.congr pass.dispatching.owner pass.dispatching.forkqueue_subset
    cases isCurrent : mid.current with
    | none =>
        obtain rfl := Except.ok.inj
          ((execute_of_idle sched isCurrent).symm.trans executedEq)
        exact ⟨rousedMid, forkedMid⟩
    | some c =>
        obtain ⟨stay, t, ⟨rfl, _, _, after⟩ | ⟨rfl, _, _, after⟩⟩ :=
          (roused_carries sched rousedMid forkedMid pass.prepared pass.fitting
            isCurrent).executed serves.contract pass.prepared.dispatched isCurrent
              executedEq
        · exact after
        · refine ⟨after.1.congr rfl rfl (List.Subset.refl _) (fun p => ?_)
            (fun p awake => ?_) (fun _ _ _ _ _ => id), after.2⟩
          · change ((t.setHolding c stay).procs p).firstDue = _
            rw [setHolding_procs]
            rfl
          · unfold isBlocked at awake ⊢
            change ((t.setHolding c stay).procs p).status ≠ .blocked
            rw [setHolding_procs]
            exact awake

end Runs

end OsPAs.Sched
