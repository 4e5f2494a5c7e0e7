/-
Module: OsPAs.Sched.BoostLimit
Purpose: The boost of `pa_schedule` has no upper limit.  On every script, also
  one whose runs end at an unknown resource, the priorities stay within
  `MAX_PRIO` exactly while no two ready processes stand at it.
Trusted boundary: none
Main exports: Capped, OneAtCap, Steady.ranks, Tidy.dispatched, Linked.execute,
  paSchedule_capped_iff, pa_capped_iff
-/
import OsPAs.Lib.Ensures
import OsPAs.Sched.Boosts
import OsPAs.Sched.Preference

namespace OsPAs.Sched

open Lib

variable {n : Nat}

/-- Nobody has a priority above `MAX_PRIO`. -/
def Capped (s : Sim n) : Prop := ∀ p, (s.procs p).prio ≤ maxPrio

/-- At most one ready process has priority `MAX_PRIO`. -/
def OneAtCap (s : Sim n) : Prop :=
  ∀ p ∈ s.readyqueue, ∀ q ∈ s.readyqueue,
    (s.procs p).prio = maxPrio → (s.procs q).prio = maxPrio → p = q

instance (s : Sim n) : Decidable (Capped s) :=
  inferInstanceAs (Decidable (∀ _, _))

instance (s : Sim n) : Decidable (OneAtCap s) :=
  inferInstanceAs (Decidable (∀ p ∈ s.readyqueue, ∀ q ∈ s.readyqueue, _))

/-! ### A pass on any script -/

/-- The two states agree on all priorities, and on what the script fixes. -/
structure SameRanks (s s' : Sim n) : Prop where
  script : SameScript s s'
  prio : ∀ p, (s'.procs p).prio = (s.procs p).prio

namespace SameRanks

variable {s s' s'' : Sim n}

theorem trans (first : SameRanks s s') (second : SameRanks s' s'') :
    SameRanks s s'' :=
  ⟨first.script.trans second.script,
    fun p => (second.prio p).trans (first.prio p)⟩

end SameRanks

theorem Steady.ranks {s s' : Sim n} (steady : Steady s s') : SameRanks s s' :=
  ⟨steady.script, steady.prio⟩

/-! ### The callbacks, whatever resource is named -/

section Callbacks

variable {s : Sim n} {c : Fin n} {resourceId : Nat}

/-- A request of a process in no list goes through for a known resource only,
and changes no priority. -/
theorem prioAcquire_ensures (loose : s.detached c) :
    Ensures (fun result => (∃ r, Requested s c r result.1 result.2) ∧
      ∀ p, (result.2.procs p).prio = (s.procs p).prio)
      (prioAcquire c resourceId s) := by
  by_cases inside : resourceId < nrResources
  · obtain ⟨granted, s', acquired, move⟩ :=
      acquireWith_requested (fun _ => prioOnly_id) (fun _ _ => prioOnly_id) s c
        resourceId inside loose
    have eq : prioAcquire c resourceId s = .ok (granted, s') := acquired
    rw [eq]
    exact ensures_ok ⟨⟨_, move⟩, prioAcquire_prio eq⟩
  · have faults : prioAcquire c resourceId s = .error .outOfRange := by
      simp [prioAcquire, acquireWith, resource, inside, bind, Except.bind]
    rw [faults]
    exact ensures_error _

/-- So does a release. -/
theorem prioRelease_ensures (loose : ∀ r, WaitersLoose s r) :
    Ensures (fun s' => (∃ r, Released s c r s') ∧
      ∀ p, (s'.procs p).prio = (s.procs p).prio)
      (prioRelease c resourceId s) := by
  by_cases inside : resourceId < nrResources
  · rcases releaseWith_released (fun _ => prioOnly_id) highestPrio_mem s c
      resourceId inside (loose _) with ⟨failed, _⟩ | ⟨s', released, move⟩
    · have eq : prioRelease c resourceId s = .error .assertFailed := failed
      rw [eq]
      exact ensures_error _
    · have eq : prioRelease c resourceId s = .ok s' := released
      rw [eq]
      exact ensures_ok ⟨⟨_, move⟩, releaseWith_prio released⟩
  · have faults : prioRelease c resourceId s = .error .outOfRange := by
      simp [prioRelease, releaseWith, resource, inside, bind, Except.bind]
    rw [faults]
    exact ensures_error _

end Callbacks

/-! ### The second half of a pass -/

/-- While process `c` runs, in the tick that began in state `s`. -/
structure Occupied (s : Sim n) (c : Fin n) (t : Sim n) : Prop where
  linked : Linked t (some c)
  isCurrent : t.current = some c
  running : (t.procs c).status = .running
  ranks : SameRanks s t

/-- After a request of process `c` was refused. -/
structure Stopped (s : Sim n) (c : Fin n) (t : Sim n) : Prop where
  linked : Linked t none
  isCurrent : t.current = some c
  asleep : isBlocked t c
  ranks : SameRanks s t

section Tick

variable {sched : Scheduler n} {s t t' : Sim n} {c : Fin n}
  {r : Fin nrResources}

namespace Occupied

/-- An update of the running process that keeps its status and priority. -/
theorem modify (occupied : Occupied s c t) {change : Process → Process}
    (keeps : ∀ process, (change process).status = process.status)
    (steady : Steady t (t.modify c change)) :
    Occupied s c (t.modify c change) where
  linked := occupied.linked.modify keeps
  isCurrent := occupied.isCurrent
  running := by
    rw [Sim.modify_self, keeps]
    exact occupied.running
  ranks := occupied.ranks.trans steady.ranks

theorem print (occupied : Occupied s c t) (event : Event n) :
    Occupied s c (t.print event) :=
  ⟨occupied.linked.print event, occupied.isCurrent, occupied.running,
    occupied.ranks.trans (Steady.print t event).ranks⟩

theorem granted (occupied : Occupied s c t) (move : Requested t c r true t')
    (prio : ∀ p, (t'.procs p).prio = (t.procs p).prio) : Occupied s c t' where
  linked := occupied.linked.granted move
  isCurrent := move.current.trans occupied.isCurrent
  running := by
    obtain ⟨k, eq⟩ := move.procs_granted c
    rw [eq]
    exact occupied.running
  ranks := occupied.ranks.trans ⟨.granted move, prio⟩

theorem refused (occupied : Occupied s c t) (move : Requested t c r false t')
    (prio : ∀ p, (t'.procs p).prio = (t.procs p).prio) : Stopped s c t' where
  linked := occupied.linked.refused move
  isCurrent := move.current.trans occupied.isCurrent
  asleep := by
    obtain ⟨k, eq⟩ := move.procs_refused c
    unfold isBlocked
    rw [eq]
    simp
  ranks := occupied.ranks.trans ⟨.refused move, prio⟩

theorem released (occupied : Occupied s c t) (move : Released t c r t')
    (prio : ∀ p, (t'.procs p).prio = (t.procs p).prio) : Occupied s c t' where
  linked := occupied.linked.released move
  isCurrent := move.current.trans occupied.isCurrent
  running := by
    obtain ⟨k, status, eq, same | ⟨asleep, _⟩⟩ := move.procs c
    · rw [eq]
      exact same.trans occupied.running
    · exact absurd asleep (occupied.linked.runs c rfl)
  ranks := occupied.ranks.trans ⟨.released move, prio⟩

theorem growOlder (occupied : Occupied s c t) :
    Occupied s c (OsPAs.Sched.growOlder c t) :=
  occupied.modify (fun _ => rfl) (.growOlder t c)

/-- The process that ran is still the runner after the tick. -/
theorem tidy (occupied : Occupied s c t) : Tidy (nextTick t) where
  linked := by
    have awake : ¬ isBlocked t c := occupied.linked.runs c rfl
    have runs : runner (nextTick t) = some c :=
      runner_eq_some.mpr ⟨occupied.isCurrent, awake⟩
    rw [runs]
    exact occupied.linked.nextTick
  current := fun other isOther => by
    obtain rfl := Option.some.inj (occupied.isCurrent.symm.trans isOther)
    exact .inr occupied.running

end Occupied

/-- A process that was stopped is nobody's runner after the tick. -/
theorem Stopped.tidy (stopped : Stopped s c t) : Tidy (nextTick t) where
  linked := by
    have nobody : runner (nextTick t) = none := by
      refine Option.eq_none_iff_forall_ne_some.mpr fun other isRunner => ?_
      obtain ⟨isOther, awake⟩ := runner_eq_some.mp isRunner
      obtain rfl := Option.some.inj (stopped.isCurrent.symm.trans isOther)
      exact awake stopped.asleep
    rw [nobody]
    exact stopped.linked.nextTick
  current := fun other isOther => by
    obtain rfl := Option.some.inj (stopped.isCurrent.symm.trans isOther)
    exact .inl stopped.asleep

theorem Stopped.print (stopped : Stopped s c t) (event : Event n) :
    Stopped s c (t.print event) :=
  ⟨stopped.linked.print event, stopped.isCurrent, stopped.asleep,
    stopped.ranks.trans (Steady.print t event).ranks⟩

theorem Stopped.setToAcquire (stopped : Stopped s c t)
    (stay : List ResourceSchedule) : Stopped s c (t.setToAcquire c stay) where
  linked := stopped.linked.modify fun _ => rfl
  isCurrent := stopped.isCurrent
  asleep := by
    unfold isBlocked Sim.setToAcquire
    rw [Sim.modify_self]
    exact stopped.asleep
  ranks := stopped.ranks.trans (Steady.setToAcquire t c stay).ranks

/-- The outcome of the requests of a tick. -/
def Asked (s : Sim n) (c : Fin n) : Bool → Sim n → Prop
  | true, t => Occupied s c t
  | false, t => Stopped s c t

theorem Occupied.acquireLoop (acquires : sched.acquire = prioAcquire)
    (todo : List ResourceSchedule) (occupied : Occupied s c t) :
    Ensures (fun result => Asked s c result.1 result.2.2)
      (acquireLoop sched c todo t) := by
  induction todo generalizing t with
  | nil => exact ensures_ok occupied
  | cons rs rest inductionHypothesis =>
      unfold OsPAs.Sched.acquireLoop
      split
      · rw [acquires]
        refine (prioAcquire_ensures (occupied.linked.detached_of_run rfl)).bind ?_
        rintro ⟨granted, t'⟩ ⟨⟨r, move⟩, prio⟩
        cases granted with
        | true =>
            have holding : Occupied s c (t'.hold c rs) :=
              (occupied.granted move prio).modify (fun _ => rfl) (.hold t' c rs)
            exact inductionHypothesis (holding.print _)
        | false => exact ensures_ok ((occupied.refused move prio).print _)
      · exact (inductionHypothesis occupied).bind fun _ asked => ensures_ok asked

theorem Occupied.releaseLoop (releases : sched.release = prioRelease)
    (todo : List ResourceSchedule) (occupied : Occupied s c t) :
    Ensures (fun result => Occupied s c result.2)
      (releaseLoop sched c todo t) := by
  induction todo generalizing t with
  | nil => exact ensures_ok occupied
  | cons rs rest inductionHypothesis =>
      unfold OsPAs.Sched.releaseLoop
      split
      · exact (inductionHypothesis occupied).bind fun _ after => ensures_ok after
      · rw [releases]
        refine (prioRelease_ensures occupied.linked.waitersLoose).bind ?_
        rintro t' ⟨⟨r, move⟩, prio⟩
        exact inductionHypothesis ((occupied.released move prio).print _)

theorem Occupied.runCurrentAcquire (acquires : sched.acquire = prioAcquire)
    (occupied : Occupied s c t) :
    Ensures (fun answer => Asked s c answer.1 answer.2)
      (runCurrentAcquire sched c t) := by
  unfold OsPAs.Sched.runCurrentAcquire
  refine (occupied.acquireLoop acquires _).bind ?_
  rintro ⟨granted, stay, t'⟩ asked
  cases granted with
  | true =>
      have kept : Occupied s c (t'.setToAcquire c stay) :=
        Occupied.modify asked (fun _ => rfl) (.setToAcquire t' c stay)
      exact ensures_ok kept
  | false =>
      have stopped : Stopped s c t' := asked
      exact ensures_ok (stopped.setToAcquire stay)

theorem Occupied.runCurrentRelease (releases : sched.release = prioRelease)
    (occupied : Occupied s c t) :
    Ensures (fun t' => Occupied s c t') (runCurrentRelease sched c t) := by
  unfold OsPAs.Sched.runCurrentRelease
  refine (occupied.releaseLoop releases _).bind ?_
  rintro ⟨stay, t'⟩ after
  have kept : Occupied s c (t'.setHolding c stay) :=
    Occupied.modify after (fun _ => rfl) (.setHolding t' c stay)
  exact ensures_ok kept

/-- The second half of a pass keeps the lists linked and all priorities. -/
theorem Linked.execute (acquires : sched.acquire = prioAcquire)
    (releases : sched.release = prioRelease) (linked : Linked s s.current) :
    Ensures (fun s' => Tidy s' ∧ SameRanks s s') (execute sched s) := by
  unfold OsPAs.Sched.execute
  cases isCurrent : s.current with
  | none =>
      refine ensures_ok ⟨⟨?_, fun c other => ?_⟩,
        ((Steady.print s .idle).trans (.nextTick _)).ranks⟩
      · rw [isCurrent] at linked
        rw [runner_of_idle isCurrent]
        exact (linked.print .idle).nextTick
      · change s.current = some c at other
        simp [isCurrent] at other
  | some c =>
      rw [isCurrent] at linked
      dsimp only
      split
      · exact ensures_error _
      · have loose := linked.detached_of_run rfl
        have occupied : Occupied s c (s.setStatus c .running) :=
          { linked := linked.setStatus_of_detached loose (by simp)
            isCurrent := isCurrent
            running := by rw [setStatus_procs]; simp
            ranks := (Steady.setStatus s c .running).ranks }
        refine (ensures_self _).bind fun _ _ => ?_
        refine (occupied.runCurrentAcquire acquires).bind ?_
        rintro ⟨granted, t⟩ asked
        cases granted with
        | true =>
            have ran : Occupied s c (growOlder c (t.print (.ran c))) :=
              (Occupied.print asked (.ran c)).growOlder
            exact (ran.runCurrentRelease releases).bind fun t' after =>
              ensures_ok ⟨after.tidy, after.ranks.trans (Steady.nextTick t').ranks⟩
        | false =>
            have stopped : Stopped s c t := asked
            exact ensures_ok
              ⟨stopped.tidy, stopped.ranks.trans (Steady.nextTick t).ranks⟩

end Tick

/-! ### The first half of a pass -/

section Dispatch

variable {s s' mid chosen : Sim n} {next : Option (Fin n)}

/-- The first half of a pass leaves the lists linked, and changes priorities by
`pa_schedule` only. -/
theorem Tidy.dispatched (tidy : Tidy s)
    (dispatchedEq : dispatch paScheduler s = .ok mid) :
    Linked mid mid.current ∧ SameScript s mid ∧
      ∃ next chosen, paSchedule (forkOnSchedule s) = .ok (next, chosen) ∧
        ∀ p, (mid.procs p).prio = (chosen.procs p).prio := by
  obtain ⟨next, chosen, scheduled, choice, linked, retired⟩ :=
    tidy.dispatched_cases (Policy.contract (show Policy.pa ∈ statusAware by decide))
      trivial dispatchedEq
  refine ⟨?_, SameScript.of_procs fun p => ?_, next, chosen, scheduled, fun p => ?_⟩
  · rw [retired.current]
    exact linked.retired retired
  · obtain ⟨status, eq⟩ := retired.procs p
    obtain ⟨k, eqChosen⟩ := choice.procs p
    change mid.procs p = { chosen.procs p with status := status } at eq
    rw [eqChosen, tidy.forked.procs] at eq
    exact ⟨k, status, _, _, _, eq⟩
  · obtain ⟨status, eq⟩ := retired.procs p
    rw [eq]

/-- A boost takes a process above `MAX_PRIO` if it stands at it. -/
theorem boosted_of_ready {p : Fin n} (capped : Capped s)
    (isReady : p ∈ s.readyqueue) : boosted s p = (s.procs p).prio + 1 := by
  have bound := capped p
  unfold maxPrio at bound
  rw [boosted, if_pos isReady, toUInt_of_lt (by omega)]

/-- One call of `pa_schedule` stays within `MAX_PRIO` exactly if at most one
ready process stands at it: that one is chosen and falls back to its original
priority, anybody else is boosted beyond. -/
theorem paSchedule_capped_iff (nodup : s.readyqueue.Nodup)
    (loose : CurrentLoose s) (capped : Capped s) (below : UnderCeiling s)
    (scheduled : paSchedule s = .ok (next, chosen)) :
    Capped chosen ↔ OneAtCap s := by
  obtain ⟨preferred, prio⟩ := paSchedule_preferred nodup loose scheduled
  constructor
  · intro within p isReady q isReadyToo atCap atCapToo
    have isNext {r : Fin n} (ready : r ∈ s.readyqueue)
        (top : (s.procs r).prio = maxPrio) : next = some r := by
      by_contra other
      have bound := within r
      rw [prio, if_neg fun both => other both.2, boosted_of_ready capped ready,
        top] at bound
      exact absurd bound (Nat.not_succ_le_self _)
    exact Option.some.inj
      ((isNext isReady atCap).symm.trans (isNext isReadyToo atCapToo))
  · intro oneAtCap p
    rw [prio]
    split
    · exact below p
    · rename_i notTaken
      by_cases isReady : p ∈ s.readyqueue
      · rw [boosted_of_ready capped isReady]
        refine Nat.lt_of_le_of_ne (capped p) fun atCap => ?_
        -- a process at the limit is boosted above all others, hence chosen
        obtain ⟨best, isNext, notBelow, member | ⟨isCurrent, awake, _⟩⟩ :=
          preferred.le_chosen isReady
        · rw [boosted_of_ready capped isReady, boosted_of_ready capped member,
            atCap] at notBelow
          obtain rfl : p = best := oneAtCap p isReady best member atCap
            (Nat.le_antisymm (capped best) (Nat.le_of_succ_le_succ notBelow))
          exact notTaken ⟨isReady, isNext⟩
        · have elsewhere := (loose best isCurrent awake).2.1
          rw [boosted_of_ready capped isReady, boosted, if_neg elsewhere,
            atCap] at notBelow
          exact absurd (capped best) (Nat.not_le_of_lt notBelow)
      · rw [boosted, if_neg isReady]
        exact capped p

end Dispatch

/-! ### Whole runs -/

section Runs

variable {script : List ProcessBlock} {k : Nat} {s s' : Sim script.length}

/-- The states between two ticks, on any script. -/
theorem reached_tidy
    (reached : doSimulation script paScheduler k = .ok (.again s)) :
    Tidy s ∧ SameScript (load script) s := by
  refine iterate_invariant
    (fun _ s => Tidy s ∧ SameScript (load script) s)
    ⟨load_tidy script, .refl _⟩ ?_ reached
  rintro k s s' _ ⟨tidy, same⟩ ran
  obtain ⟨mid, dispatchedEq, _, executedEq⟩ := body_again ran
  obtain ⟨linked, dispatched, _⟩ := tidy.dispatched dispatchedEq
  obtain ⟨tidy', ranks⟩ := linked.execute rfl rfl s' executedEq
  exact ⟨tidy', (same.trans dispatched).trans ranks.script⟩

/-- A tick leaves everybody within `MAX_PRIO` exactly if at most one ready
process stands at it when `pa_schedule` is called. -/
theorem Tidy.capped_iff (tidy : Tidy s) (below : UnderCeiling s)
    (capped : Capped s) (ran : body paScheduler s = .ok (.again s')) :
    Capped s' ↔ OneAtCap (forkOnSchedule s) := by
  obtain ⟨mid, dispatchedEq, _, executedEq⟩ := body_again ran
  obtain ⟨linked, _, next, chosen, scheduled, prio⟩ :=
    tidy.dispatched dispatchedEq
  obtain ⟨_, ranks⟩ := linked.execute rfl rfl s' executedEq
  have forks := tidy.forked
  have cappedForked : Capped (forkOnSchedule s) := fun p => by
    rw [forks.procs]
    exact capped p
  have belowForked : UnderCeiling (forkOnSchedule s) := fun p => by
    rw [forks.procs]
    exact below p
  have same : Capped s' ↔ Capped chosen :=
    forall_congr' fun p => by rw [ranks.prio, prio]
  rw [same]
  exact paSchedule_capped_iff tidy.linked_forked.nodup_readyqueue
    tidy.loose_forked cappedForked belowForked scheduled

end Runs

/-- Under priority with aging, on every script with original priorities up to
`MAX_PRIO`: in a run of `k` ticks nobody ever has a priority above `MAX_PRIO`
between two ticks exactly if in none of its calls `pa_schedule` finds two ready
processes with priority `MAX_PRIO`. -/
theorem pa_capped_iff (script : List ProcessBlock)
    (low : ∀ block ∈ script, block.prio.toNat ≤ maxPrio) (k : Nat)
    (s : Sim script.length)
    (reached : doSimulation script paScheduler k = .ok (.again s)) :
    (∀ j ≤ k, ∀ t, doSimulation script paScheduler j = .ok (.again t) →
      Capped t) ↔
    ∀ j < k, ∀ t, doSimulation script paScheduler j = .ok (.again t) →
      OneAtCap (forkOnSchedule t) := by
  have below {j : Nat} {t : Sim script.length}
      (reached : doSimulation script paScheduler j = .ok (.again t)) :
      UnderCeiling t := by
    refine UnderCeiling.of_same (fun p => ?_) (reached_tidy reached).2
    exact low _ (List.get_mem script p)
  constructor
  · intro capped j before t reachedT
    obtain ⟨t', reachedT'⟩ := iterate_again_of_le reached before
    have ran := (iterate_succ_of_again reachedT).symm.trans reachedT'
    exact ((reached_tidy reachedT).1.capped_iff (below reachedT)
      (capped j (Nat.le_of_lt before) t reachedT) ran).mp
      (capped (j + 1) before t' reachedT')
  · intro oneAtCap j upTo
    induction j with
    | zero =>
        intro t reachedT p
        obtain rfl : load script = t := by
          simpa [doSimulation] using reachedT
        exact low _ (List.get_mem script p)
    | succ j inductionHypothesis =>
        intro t' reachedT'
        obtain ⟨t, reachedT, ran⟩ := iterate_succ_again reachedT'
        have capped := inductionHypothesis (Nat.le_of_succ_le upTo) t reachedT
        exact ((reached_tidy reachedT).1.capped_iff (below reachedT) capped
          ran).mpr (oneAtCap j upTo t reachedT)

/-- Two processes with the highest priority allowed. -/
def twoAtCap : List ProcessBlock :=
  [{ pid := 1, lifespan := 1, prio := 64 },
   { pid := 2, lifespan := 1, prio := 64 }]

/-- After one tick the one that was not chosen has been boosted beyond. -/
theorem twoAtCap_exceeds :
    (∀ block ∈ twoAtCap, block.prio.toNat ≤ maxPrio) ∧
      ∃ s p, doSimulation twoAtCap paScheduler 1 = .ok (.again s) ∧
        (s.procs p).prio = maxPrio + 1 ∧ ¬ Capped s := by
  obtain ⟨s, reached, p, prio⟩ := exists_of_againWith
    (fun s => ∃ p, (s.procs p).prio = maxPrio + 1)
    (doSimulation twoAtCap paScheduler 1) (by decide +kernel)
  refine ⟨by decide, s, p, reached, prio, fun capped => ?_⟩
  have bound := capped p
  rw [prio] at bound
  exact absurd bound (Nat.not_succ_le_self maxPrio)

/-- One process with the highest priority, and one that reaches it by waiting. -/
def capAndBelow : List ProcessBlock :=
  [{ pid := 1, lifespan := 2, prio := 64 },
   { pid := 2, lifespan := 2, prio := 62 }]

/-- The two never stand at the limit in the ready queue together. -/
theorem pa_capped_iff_capAndBelow :
    ∃ s, doSimulation capAndBelow paScheduler 4 = .ok (.again s) ∧
      ∀ j ≤ 4, ∀ t, doSimulation capAndBelow paScheduler j = .ok (.again t) →
        Capped t := by
  obtain ⟨s, reached, _⟩ := exists_of_againWith (fun _ => True)
    (doSimulation capAndBelow paScheduler 4) (by decide +kernel)
  have calls : ∀ j < 4, againAll (fun t => OneAtCap (forkOnSchedule t))
      (doSimulation capAndBelow paScheduler j) = true := by decide +kernel
  exact ⟨s, reached, (pa_capped_iff capAndBelow (by decide) 4 s reached).mpr
    fun j before t => forall_of_againAll _ _ (calls j before) t⟩

end OsPAs.Sched
