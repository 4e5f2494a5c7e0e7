/-
Module: OsPAs.Sched.NonPreemptive
Purpose: Without preemption a process that is refused a resource waits for good:
  whoever owns a resource keeps the processor or is blocked itself, so nobody
  is ever woken.
Trusted boundary: none
Main exports: NonPreemptive, Standing, fifoScheduler_plain, sjfScheduler_plain,
  NonPreemptive.handsOver
-/
import OsPAs.Sched.ServiceOrder

namespace OsPAs.Sched

open Lib

variable {n : Nat}

/-- A policy that takes the processor from nobody who is awake and
unfinished. -/
def NonPreemptive (sched : Scheduler n) : Prop :=
  ∀ s c, s.current = some c → ¬ isBlocked s c → unfinished s c →
    sched.schedule s = .ok (some c, s)

/-! ### The two policies -/

section Keep

variable {pickNext : Sim n → Except Fault (Option (Fin n) × Sim n)}
  {s s' : Sim n} {next : Option (Fin n)}

theorem keepUnfinished_keeps {c : Fin n} (isCurrent : s.current = some c)
    (awake : ¬ isBlocked s c) (alive : unfinished s c) :
    keepUnfinished pickNext s = .ok (some c, s) := by
  simp [keepUnfinished, isCurrent, awake, alive]

/-- A policy that at most takes a process out of the ready queue changes no
priority. -/
theorem keepUnfinished_prio
    (picks : ∀ next s', pickNext s = .ok (next, s') →
      s' = s ∨ ∃ p, s' = s.delInitReady p)
    (scheduled : keepUnfinished pickNext s = .ok (next, s')) (p : Fin n) :
    (s'.procs p).prio = (s.procs p).prio := by
  have cases : s' = s ∨ pickNext s = .ok (next, s') := by
    unfold keepUnfinished at scheduled
    split at scheduled
    · exact Or.inr scheduled
    · split at scheduled
      · exact Or.inr scheduled
      · split at scheduled
        · exact Or.inl (Prod.mk.inj (Except.ok.inj scheduled)).2.symm
        · exact Or.inr scheduled
  rcases cases with rfl | picked
  · rfl
  · rcases picks next s' picked with rfl | ⟨q, rfl⟩
    · rfl
    · rfl

end Keep

section Members

variable {sched : Scheduler n}
  {pickNext : Sim n → Except Fault (Option (Fin n) × Sim n)}

theorem nonPreemptive_of_keepUnfinished
    (schedule : sched.schedule = keepUnfinished pickNext) :
    NonPreemptive sched := by
  intro s c isCurrent awake alive
  rw [schedule]
  exact keepUnfinished_keeps isCurrent awake alive

theorem plain_of_keepUnfinished
    (schedule : sched.schedule = keepUnfinished pickNext)
    (picks : ∀ s next s', pickNext s = .ok (next, s') →
      s' = s ∨ ∃ p, s' = s.delInitReady p)
    (acquire : sched.acquire = fcfsAcquire)
    (release : sched.release = fcfsRelease) : Plain firstWaiter sched where
  schedule := by
    intro s next s' scheduled
    rw [schedule] at scheduled
    exact keepUnfinished_prio (picks s) scheduled
  acquire := acquire
  release := release

end Members

theorem fifoScheduler_nonPreemptive : NonPreemptive (n := n) fifoScheduler :=
  nonPreemptive_of_keepUnfinished rfl

theorem sjfScheduler_nonPreemptive : NonPreemptive (n := n) sjfScheduler :=
  nonPreemptive_of_keepUnfinished rfl

theorem fifoScheduler_plain : Plain (n := n) firstWaiter fifoScheduler := by
  apply plain_of_keepUnfinished rfl _ rfl rfl
  intro s next s' picked
  split at picked
  · exact Or.inl (Prod.mk.inj (Except.ok.inj picked)).2.symm
  · exact Or.inr ⟨_, (Prod.mk.inj (Except.ok.inj picked)).2.symm⟩

theorem sjfScheduler_plain : Plain (n := n) firstWaiter sjfScheduler := by
  apply plain_of_keepUnfinished rfl _ rfl rfl
  intro s next s' picked
  split at picked
  · exact Or.inl (Prod.mk.inj (Except.ok.inj picked)).2.symm
  · exact Or.inr ⟨_, (Prod.mk.inj (Except.ok.inj picked)).2.symm⟩

theorem firstWaiter_picks (prio : Fin n → Nat) :
    Picks firstWaiter prio (fun _ _ => True) where
  mem := firstWaiter_mem
  ranks := fun _ _ _ _ _ _ => trivial
  ownerBlind := fun _ _ _ _ => rfl

theorem firstWaiter_keepsAhead (prio : Fin n → Nat) {p q : Fin n}
    (differ : p ≠ q) : KeepsAhead firstWaiter prio p q := by
  intro s first rest _ ahead isFirst
  have isHead : first = q := isFirst
  subst isHead
  have inFront : p ∈ [] := Ahead.mem_front ahead differ
  simp at inFront

/-! ### Nobody is woken -/

/-- Nobody ready has asked for anything, an owner runs or waits, and what is
waited for belongs to somebody who waits. -/
structure Standing (s : Sim n) (run : Option (Fin n)) : Prop where
  fresh : ∀ p, p ∈ s.forkqueue ∨ p ∈ s.readyqueue → lastRequest s p = none
  owners : ∀ r p, s.owner r = some p → run = some p ∨ ∃ i, p ∈ s.waitqueue i
  queued : ∀ r, s.waitqueue r ≠ [] →
    ∃ p i, s.owner r = some p ∧ p ∈ s.waitqueue i

section Moves

variable {s s' t t' : Sim n} {c w : Fin n} {r : Fin nrResources}
  {rs : ResourceSchedule} {run : Option (Fin n)}

theorem Standing.congr (standing : Standing s run)
    (last : ∀ p, lastRequest s' p = lastRequest s p)
    (forkqueue : s'.forkqueue = s.forkqueue)
    (readyqueue : s'.readyqueue = s.readyqueue) (owner : s'.owner = s.owner)
    (waitqueue : s'.waitqueue = s.waitqueue) : Standing s' run where
  fresh := fun p away => by
    rw [forkqueue, readyqueue] at away
    rw [last]
    exact standing.fresh p away
  owners := fun r p owns => by
    rw [owner] at owns
    rw [waitqueue]
    exact standing.owners r p owns
  queued := fun r waits => by
    rw [waitqueue] at waits ⊢
    rw [owner]
    exact standing.queued r waits

theorem Standing.of_none (standing : Standing s none) : Standing s run where
  fresh := standing.fresh
  owners := fun r p owns => Or.inr ((standing.owners r p owns).resolve_left
    (by simp))
  queued := standing.queued

/-- Nobody but the running process can have been woken. -/
theorem Standing.not_woken (standing : Standing t (some c))
    (told : Told t (some c)) (woken : WokenFrom t r w) : w = c := by
  by_contra other
  have notRun : some c ≠ some w := fun same => other (Option.some.inj same).symm
  obtain ⟨_, waits | isReady⟩ := told.refused r w notRun woken.1
  · exact woken.2 waits
  · have asked := woken.1
    rw [standing.fresh w (Or.inr isReady)] at asked
    simp at asked

theorem Standing.granted (standing : Standing t (some c))
    (loose : t.detached c) (move : Requested t c r true t') :
    Standing ((t'.hold c rs).print (.acquired c r.val)) (some c) := by
  obtain ⟨forkqueue, _, readyqueue, waitqueue⟩ := move.queues_granted
  constructor
  · intro p away
    change p ∈ t'.forkqueue ∨ p ∈ t'.readyqueue at away
    rw [forkqueue, readyqueue] at away
    have other : p ≠ c := by
      rintro rfl
      exact away.elim loose.1 loose.2.1
    rw [move.last_granted, if_neg other]
    exact standing.fresh p away
  · intro i p owns
    change t'.owner i = some p at owns
    change _ ∨ ∃ i, p ∈ t'.waitqueue i
    rw [move.owner_granted, Function.update_apply] at owns
    rw [waitqueue]
    split at owns
    · exact Or.inl owns
    · exact standing.owners i p owns
  · intro i waits
    change t'.waitqueue i ≠ [] at waits
    change ∃ p j, t'.owner i = some p ∧ p ∈ t'.waitqueue j
    rw [waitqueue] at waits ⊢
    obtain ⟨p, j, owns, place⟩ := standing.queued i waits
    have taken : i ≠ r := by
      rintro rfl
      simp [move.free] at owns
    rw [move.owner_granted, Function.update_of_ne taken]
    exact ⟨p, j, owns, place⟩

theorem Standing.refused (standing : Standing t (some c))
    (loose : t.detached c) (move : Requested t c r false t') :
    Standing (t'.print (.blocked c r.val)) none := by
  obtain ⟨forkqueue, _, readyqueue⟩ := move.queues_refused
  have isWaiting : c ∈ t'.waitqueue r :=
    move.mem_waitqueue_refused.mpr (Or.inr ⟨rfl, rfl⟩)
  have stillWaits {p : Fin n} {i : Fin nrResources}
      (waits : p ∈ t.waitqueue i) : p ∈ t'.waitqueue i :=
    move.mem_waitqueue_refused.mpr (Or.inl waits)
  have place {i : Fin nrResources} {p : Fin n} (owns : t.owner i = some p) :
      ∃ j, p ∈ t'.waitqueue j := by
    rcases standing.owners i p owns with isC | ⟨j, waits⟩
    · exact ⟨r, Option.some.inj isC ▸ isWaiting⟩
    · exact ⟨j, stillWaits waits⟩
  constructor
  · intro p away
    change p ∈ t'.forkqueue ∨ p ∈ t'.readyqueue at away
    rw [forkqueue, readyqueue] at away
    have other : p ≠ c := by
      rintro rfl
      exact away.elim loose.1 loose.2.1
    rw [move.last_refused, if_neg other]
    exact standing.fresh p away
  · intro i p owns
    change t'.owner i = some p at owns
    rw [move.owner_refused] at owns
    exact Or.inr (place owns)
  · intro i waits
    change ∃ p j, t'.owner i = some p ∧ p ∈ t'.waitqueue j
    rw [move.owner_refused]
    by_cases isR : i = r
    · obtain ⟨p, owns⟩ := Option.ne_none_iff_exists'.mp move.taken
      obtain ⟨j, waits⟩ := place owns
      exact ⟨p, j, isR ▸ owns, waits⟩
    · change t'.waitqueue i ≠ [] at waits
      rw [move.waitqueue_refused, Function.update_of_ne isR] at waits
      obtain ⟨p, j, owns, place⟩ := standing.queued i waits
      exact ⟨p, j, owns, stillWaits place⟩

/-- Nobody waits for what the running process owns. -/
theorem Standing.released (standing : Standing t (some c))
    (loose : t.detached c) (move : Released t c r t') (event : Nat) :
    Standing (t'.print (.released c event)) (some c) := by
  have last (p : Fin n) := move.last p event
  cases move with
  | quiet prio owned nobody =>
      constructor
      · intro p away
        rw [last]
        exact standing.fresh p away
      · intro i p owns
        change Function.update t.owner r none i = some p at owns
        rw [Function.update_apply] at owns
        split at owns
        · simp at owns
        · exact standing.owners i p owns
      · intro i waits
        change t.waitqueue i ≠ [] at waits
        have other : i ≠ r := fun same => waits (same ▸ nobody)
        obtain ⟨p, j, owns, place⟩ := standing.queued i waits
        refine ⟨p, j, ?_, place⟩
        change Function.update t.owner r none i = some p
        rwa [Function.update_of_ne other]
  | wake prio owned isWaiting =>
      obtain ⟨p, i, owns, waits⟩ :=
        standing.queued r (List.ne_nil_of_mem isWaiting)
      obtain rfl : c = p := Option.some.inj (owned.symm.trans owns)
      exact absurd waits (loose.2.2 i)

end Moves

/-! ### One pass -/

section Pass

variable {choose : Sim n → Fin n → List (Fin n) → Fin n}
  {sched : Scheduler n} {prio : Fin n → Nat} {rank : Fin n → Fin n → Prop}
  {all : Fin n → List ResourceSchedule} {s s' mid : Sim n} {c : Fin n}
  {guard : Sim n → Prop}

/-- An unfinished process that is not preempted stays, so nobody joins the ready
queue but those forked. -/
theorem NonPreemptive.chosen_readyqueue (nonPreemptive : NonPreemptive sched)
    {next : Option (Fin n)} {chosen : Sim n}
    (scheduled : sched.schedule s = .ok (next, chosen))
    (choice : Chosen True s next chosen) :
    chosen.readyqueue ⊆ s.readyqueue := by
  cases choice with
  | keep => exact List.Subset.refl _
  | idle => exact List.Subset.refl _
  | pick => exact List.erase_subset
  | preempt prio isReady isCurrent awake alive =>
      have keeps := nonPreemptive s _ isCurrent awake alive
      rw [scheduled] at keeps
      rw [(Prod.mk.inj (Except.ok.inj keeps)).2]
      exact List.Subset.refl _

/-- The first half of a pass. -/
theorem Standing.dispatched (nonPreemptive : NonPreemptive sched)
    (contract : Contract True guard sched) (standing : Standing s s.current)
    (settled : Settled all s) (fitting : Fitting all s)
    (guarded : guard (forkOnSchedule s))
    (dispatchedEq : dispatch sched s = .ok mid)
    (dispatching : Dispatching s mid) : Standing mid mid.current := by
  have sound := settled.sound
  have forked := sound.forked
  obtain ⟨next, chosen, scheduled, choice, _, retired⟩ :=
    sound.dispatched_cases contract guarded dispatchedEq
  constructor
  · intro p away
    rw [sound.dispatch_last contract guarded dispatchedEq]
    apply standing.fresh p
    rcases away with isForking | isReady
    · rw [dispatching.forkqueue] at isForking
      exact Or.inl (List.mem_of_mem_filter isForking)
    · rw [retired.readyqueue] at isReady
      have wasReady := nonPreemptive.chosen_readyqueue scheduled choice isReady
      rw [forked.readyqueue] at wasReady
      rcases List.mem_append.mp wasReady with ready | isDue
      · exact Or.inr ready
      · exact Or.inl (List.mem_of_mem_filter isDue)
  · intro r p owns
    rw [dispatching.owner] at owns
    rw [dispatching.waitqueue]
    rcases standing.owners r p owns with isCurrent | waits
    · by_cases asleep : isBlocked s p
      · exact Or.inr (sound.linked.blocked p asleep)
      · refine Or.inl ?_
        have keeps := nonPreemptive (forkOnSchedule s) p
          (forked.current.trans isCurrent)
          (fun blocked => asleep ((forked.isBlocked_iff p).mp blocked)) (by
            unfold unfinished
            rw [forked.procs]
            exact settled.books.owner_unfinished fitting owns)
        rw [scheduled] at keeps
        exact retired.current.trans (Prod.mk.inj (Except.ok.inj keeps)).1
    · exact Or.inr waits
  · intro r waits
    rw [dispatching.waitqueue] at waits ⊢
    rw [dispatching.owner]
    exact standing.queued r waits

/-- What is carried through a tick of the chosen process. -/
theorem Plain.standing_carries (plain : Plain choose sched)
    (picks : Picks choose prio rank) (prepared : Prepared all mid)
    (fitting : Fitting all mid) (isCurrent : mid.current = some c)
    (orderly : Orderly rank prio mid (some c))
    (asks : AsksFirst mid c (mid.procs c).resourcesToAcquire)
    (standing : Standing mid (some c)) :
    Carries sched True mid c
      (fun kept todo t => (Asking all mid c kept todo t ∧
        Requesting rank prio mid c todo t) ∧ Standing t (some c))
      (fun stay t => (TurnedDown all c stay t ∧
        Orderly rank prio (t.setToAcquire c stay) none) ∧ Standing t none)
      (fun kept todo t => (Releasing all mid c kept todo t ∧
        Orderly rank prio t none) ∧ Standing t (some c)) := by
  apply (plain.carries picks prepared fitting isCurrent orderly asks).alongside
  · exact standing.congr (fun _ => rfl) rfl rfl rfl rfl
  · intro kept rs rest t _ _ standing _
    exact standing
  · intro kept rs rest t inside t' busy _ standing _ _ _ move
    exact standing.granted busy.detached move
  · intro kept rs rest t inside t' busy _ standing _ _ _ move
    exact standing.refused busy.detached move
  · intro stay t _ _ standing _
    refine standing.congr (fun p => ?_) rfl rfl rfl rfl
    exact lastRequest_print_of_none (s := t.setToAcquire c stay) rfl
  · intro kept rs rest t _ _ standing _
    exact standing
  · intro kept rs rest t inside t' busy _ standing _ _ move _
    exact standing.released busy.detached move rs.resourceId

/-- The second half of a pass. -/
theorem Plain.standing_executed (plain : Plain choose sched)
    (contract : Contract True guard sched) (picks : Picks choose prio rank)
    (prepared : Prepared all mid) (fitting : Fitting all mid)
    (orderly : Orderly rank prio mid mid.current)
    (asks : ∀ c, AsksFirst mid c (mid.procs c).resourcesToAcquire)
    (standing : Standing mid mid.current)
    (executedEq : execute sched mid = .ok s') : Standing s' s'.current := by
  cases isCurrent : mid.current with
  | none =>
      obtain rfl := Except.ok.inj
        ((execute_of_idle sched isCurrent).symm.trans executedEq)
      rw [isCurrent] at standing
      have idle : Standing (nextTick (mid.print .idle)) none := by
        refine standing.congr (fun p => ?_) rfl rfl rfl rfl
        exact lastRequest_print_of_none (s := mid) rfl
      exact idle.of_none
  | some c =>
      rw [isCurrent] at orderly standing
      obtain ⟨stay, t, ⟨rfl, _, _, ended⟩ | ⟨rfl, busy, _, ended⟩⟩ :=
        (plain.standing_carries picks prepared fitting isCurrent orderly
          (asks c) standing).executed contract prepared.dispatched isCurrent
            executedEq
      · exact ended.of_none.congr (fun _ => rfl) rfl rfl rfl rfl
      · have still : t.current = some c := busy.isCurrent
        change Standing _ t.current
        rw [still]
        exact ended.congr (fun _ => rfl) rfl rfl rfl rfl

end Pass

/-! ### Whole runs -/

section Reached

variable {script : List ProcessBlock}
  {choose : Sim script.length → Fin script.length → List (Fin script.length) →
    Fin script.length}
  {guard : Sim script.length → Prop} {sched : Scheduler script.length}
  {rank : Fin script.length → Fin script.length → Prop} {k : Nat}
  {s mid : Sim script.length}

theorem load_standing : Standing (load script) (load script).current where
  fresh := fun p _ => rfl
  owners := fun r p owns => by simp [load] at owns
  queued := fun r waits => absurd rfl waits

/-- In the middle of a pass. -/
theorem Plain.reached_standing_mid (plain : Plain choose sched)
    (nonPreemptive : NonPreemptive sched) (serves : Serves script guard sched)
    (picks : Picks choose (priorityOf script) rank)
    (reached : doSimulation script sched k = .ok (.again s))
    (pass : PassOf script sched k s mid) (standing : Standing s s.current) :
    Orderly rank (priorityOf script) mid mid.current ∧
      (∀ c, AsksFirst mid c (mid.procs c).resourcesToAcquire) ∧
      Standing mid mid.current := by
  obtain ⟨settled, fitting, _⟩ := serves.settled reached
  have guarded := serves.guard_of_reached reached
  obtain ⟨orderly, asks⟩ := plain.dispatched serves.contract
    (plain.reached serves picks reached) settled.sound guarded
    pass.dispatchedEq pass.dispatching
  exact ⟨orderly, asks, standing.dispatched nonPreemptive serves.contract settled
    fitting guarded pass.dispatchedEq pass.dispatching⟩

/-- Between two ticks of a run without preemption. -/
theorem Plain.reached_standing (plain : Plain choose sched)
    (nonPreemptive : NonPreemptive sched) (serves : Serves script guard sched)
    (picks : Picks choose (priorityOf script) rank)
    (reached : doSimulation script sched k = .ok (.again s)) :
    Standing s s.current := by
  apply serves.invariant (fun _ s => Standing s s.current) load_standing _
    reached
  intro k s mid s' reached standing pass _ executedEq _
  obtain ⟨orderly, asks, standing⟩ := plain.reached_standing_mid nonPreemptive
    serves picks reached pass standing
  exact plain.standing_executed serves.contract picks pass.prepared pass.fitting
    orderly asks standing executedEq

/-- Without preemption every pass hands free resources over: there is nobody to
hand them over to. -/
theorem Plain.handsOver (plain : Plain choose sched)
    (nonPreemptive : NonPreemptive sched) (serves : Serves script guard sched)
    (picks : Picks choose (priorityOf script) rank)
    (reached : doSimulation script sched k = .ok (.again s))
    (r : Fin nrResources) : HandsOver sched r s := by
  intro mid c dispatchedEq isCurrent call called _ _ w woken
  obtain ⟨mid', pass⟩ := serves.pass reached
  obtain rfl := Except.ok.inj (dispatchedEq.symm.trans pass.dispatchedEq)
  obtain ⟨orderly, asks, standing⟩ := plain.reached_standing_mid nonPreemptive
    serves picks reached pass
      (plain.reached_standing nonPreemptive serves picks reached)
  rw [isCurrent] at orderly standing
  obtain ⟨_, rest, _, ⟨⟨_, requesting⟩, standing⟩, _⟩ :=
    (plain.standing_carries picks pass.prepared pass.fitting isCurrent orderly
      (asks c) standing).call serves.contract pass.prepared.dispatched isCurrent
        called
  exact standing.not_woken requesting.orderly.told woken

end Reached

end OsPAs.Sched
