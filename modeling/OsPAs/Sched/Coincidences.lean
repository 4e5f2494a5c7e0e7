/-
Module: OsPAs.Sched.Coincidences
Purpose: Scripts on which two policies do the same: with equal lifespans SJF is
  FIFO, with equal priorities PIP is the priority policy and so is round-robin,
  as long as it does not link a blocked process, and where all processes start
  together STCF is SJF.
Trusted boundary: none
Main exports: Interchangeable, equal_lifespans_come_first,
  equal_priorities_take_turns, stcf_is_sjf_for_batches
-/
import OsPAs.Sched.Blocked
import OsPAs.Sched.BoostLimit
import OsPAs.Sched.RoundRobin
import OsPAs.Sched.Sequential

namespace OsPAs.Sched

open Lib

variable {n : Nat}

/-! ### Schedulers that handle resources alike -/

/-- In states with the property `P`, which does not depend on more than the ranks
of the processes, the callbacks of `b` for resources do what those of `a` do, and
all callbacks of `a` keep the property. -/
structure Interchangeable (P : Sim n → Prop) (a b : Scheduler n) : Prop where
  ranks : ∀ s s', P s → SameRanks s s' → P s'
  acquire : ∀ s c resourceId, P s →
    b.acquire c resourceId s = a.acquire c resourceId s ∧
      Ensures (fun result => P result.2) (a.acquire c resourceId s)
  release : ∀ s c resourceId, P s →
    b.release c resourceId s = a.release c resourceId s ∧
      Ensures P (a.release c resourceId s)
  schedule : ∀ s, P s → Ensures (fun result => P result.2) (a.schedule s)

section Passes

variable {P : Sim n → Prop} {a b : Scheduler n} {s s' : Sim n} {c : Fin n}

theorem sameRanks_of_procs (procs : s'.procs = s.procs) : SameRanks s s' := by
  refine ⟨⟨fun p => ?_, fun p => ?_, fun p => ?_⟩, fun p => ?_⟩ <;> rw [procs]

theorem forkOnSchedule_sameRanks (s : Sim n) :
    SameRanks s (forkOnSchedule s) := by
  have one (s : Sim n) (p : Fin n) : SameRanks s (forkDue s p) := by
    unfold forkDue
    split
    · let moved : Sim n :=
        { s with
          forkqueue := s.forkqueue.erase p
          readyqueue := s.readyqueue ++ [p] }
      have asBefore : SameRanks s moved := sameRanks_of_procs rfl
      exact asBefore.trans ((Steady.setStatus moved p .ready).trans (.print _ _)).ranks
    · exact sameRanks_of_procs rfl
  have all (queue : List (Fin n)) (s : Sim n) :
      SameRanks s (queue.foldl forkDue s) := by
    induction queue generalizing s with
    | nil => exact sameRanks_of_procs rfl
    | cons p queue inductionHypothesis =>
        exact (one s p).trans (inductionHypothesis (forkDue s p))
  exact all s.forkqueue s

theorem retirePrev_sameRanks (prev : Option (Fin n)) (s : Sim n) :
    Ensures (SameRanks s) (retirePrev prev s) := by
  intro s' retiredEq
  rcases retirePrev_cases s prev with ⟨t, eq, retired⟩ | ⟨failed, _⟩
  · obtain rfl := Except.ok.inj (retiredEq.symm.trans eq)
    cases retired with
    | nobody => exact sameRanks_of_procs rfl
    | exits => exact ((Steady.setStatus s _ .exit).trans (.print _ _)).ranks
    | goesOn =>
        unfold Sim.rest
        split
        · exact (Steady.setStatus s _ .ready).ranks
        · exact sameRanks_of_procs rfl
  · rw [failed] at retiredEq
    simp at retiredEq

namespace Interchangeable

theorem acquireLoop (alike : Interchangeable P a b)
    (todo : List ResourceSchedule) (holds : P s) :
    acquireLoop b c todo s = acquireLoop a c todo s ∧
      Ensures (fun result => P result.2.2) (acquireLoop a c todo s) := by
  induction todo generalizing s with
  | nil => exact ⟨rfl, ensures_ok holds⟩
  | cons rs rest inductionHypothesis =>
      rw [OsPAs.Sched.acquireLoop, OsPAs.Sched.acquireLoop]
      split
      · obtain ⟨same, kept⟩ := alike.acquire s c rs.resourceId holds
        rw [same]
        cases asked : a.acquire c rs.resourceId s with
        | error fault => exact ⟨rfl, ensures_error fault⟩
        | ok result =>
            obtain ⟨granted, t⟩ := result
            have keeps : P t := kept _ asked
            cases granted with
            | true =>
                exact inductionHypothesis (alike.ranks _ _ keeps
                  ((Steady.hold t c rs).trans (.print _ _)).ranks)
            | false =>
                exact ⟨rfl, ensures_ok (alike.ranks _ _ keeps (Steady.print _ _).ranks)⟩
      · obtain ⟨same, kept⟩ := inductionHypothesis holds
        rw [same]
        exact ⟨rfl, kept.bind fun result holds => ensures_ok holds⟩

theorem releaseLoop (alike : Interchangeable P a b)
    (todo : List ResourceSchedule) (holds : P s) :
    releaseLoop b c todo s = releaseLoop a c todo s ∧
      Ensures (fun result => P result.2) (releaseLoop a c todo s) := by
  induction todo generalizing s with
  | nil => exact ⟨rfl, ensures_ok holds⟩
  | cons rs rest inductionHypothesis =>
      rw [OsPAs.Sched.releaseLoop, OsPAs.Sched.releaseLoop]
      split
      · obtain ⟨same, kept⟩ := inductionHypothesis holds
        rw [same]
        exact ⟨rfl, kept.bind fun result holds => ensures_ok holds⟩
      · obtain ⟨same, kept⟩ := alike.release s c rs.resourceId holds
        rw [same]
        cases given : a.release c rs.resourceId s with
        | error fault => exact ⟨rfl, ensures_error fault⟩
        | ok t =>
            exact inductionHypothesis
              (alike.ranks _ _ (kept t given) (Steady.print _ _).ranks)

theorem runCurrentAcquire (alike : Interchangeable P a b) (holds : P s) :
    runCurrentAcquire b c s = runCurrentAcquire a c s ∧
      Ensures (fun result => P result.2) (runCurrentAcquire a c s) := by
  obtain ⟨same, kept⟩ := alike.acquireLoop (c := c)
    (s.procs c).resourcesToAcquire holds
  unfold OsPAs.Sched.runCurrentAcquire
  rw [same]
  exact ⟨rfl, kept.bind fun result holds =>
    ensures_ok (alike.ranks _ _ holds (Steady.setToAcquire _ c _).ranks)⟩

theorem runCurrentRelease (alike : Interchangeable P a b) (holds : P s) :
    runCurrentRelease b c s = runCurrentRelease a c s ∧
      Ensures P (runCurrentRelease a c s) := by
  obtain ⟨same, kept⟩ := alike.releaseLoop (c := c)
    (s.procs c).resourcesHolding holds
  unfold OsPAs.Sched.runCurrentRelease
  rw [same]
  exact ⟨rfl, kept.bind fun result holds =>
    ensures_ok (alike.ranks _ _ holds (Steady.setHolding _ c _).ranks)⟩

/-- The second half of a pass. -/
theorem execute (alike : Interchangeable P a b) (holds : P s) :
    execute b s = execute a s ∧ Ensures P (execute a s) := by
  unfold OsPAs.Sched.execute
  cases s.current with
  | none =>
      exact ⟨rfl, ensures_ok (alike.ranks _ _ holds
        ((Steady.print s .idle).trans (.nextTick _)).ranks)⟩
  | some c =>
      dsimp only
      split
      · exact ⟨rfl, ensures_error _⟩
      · have starts : P (s.setStatus c .running) :=
          alike.ranks _ _ holds (Steady.setStatus s c .running).ranks
        obtain ⟨same, kept⟩ := alike.runCurrentAcquire (c := c) starts
        rw [same]
        cases cAssert ((s.setStatus c .running).detached c) with
        | error fault => exact ⟨rfl, ensures_error fault⟩
        | ok _ =>
            cases asked : OsPAs.Sched.runCurrentAcquire a c
                (s.setStatus c .running) with
            | error fault => exact ⟨rfl, ensures_error fault⟩
            | ok result =>
                obtain ⟨granted, t⟩ := result
                have keeps : P t := kept _ asked
                cases granted with
                | false =>
                    exact ⟨rfl, ensures_ok (alike.ranks _ _ keeps (Steady.nextTick t).ranks)⟩
                | true =>
                    obtain ⟨same, kept⟩ := alike.runCurrentRelease (c := c)
                      (alike.ranks _ _ keeps ((Steady.print t (.ran c)).trans
                        (.growOlder _ c)).ranks)
                    refine ⟨?_, kept.bind fun t holds =>
                      ensures_ok (alike.ranks _ _ holds (Steady.nextTick t).ranks)⟩
                    simp only [bind, Except.bind, if_true, same]

/-- The first half of a pass. -/
theorem dispatch (alike : Interchangeable P a b) (holds : P s) :
    Ensures P (dispatch a s) := by
  have forked := alike.ranks _ _ holds (forkOnSchedule_sameRanks s)
  refine (alike.schedule _ forked).bind fun result holds => ?_
  have given : P { result.2 with current := result.1 } :=
    alike.ranks _ _ holds (sameRanks_of_procs rfl)
  exact (retirePrev_sameRanks _ _).mono fun t same => alike.ranks _ _ given same

/-- The property holds at the top of every pass. -/
theorem reached {script : List ProcessBlock}
    {P : Sim script.length → Prop} {a b : Scheduler script.length}
    (alike : Interchangeable P a b) (initially : P (load script)) {k : Nat}
    {s : Sim script.length}
    (reached : doSimulation script a k = .ok (.again s)) : P s := by
  refine iterate_invariant (fun _ s => P s) initially ?_ reached
  intro k s s' _ holds ran
  obtain ⟨mid, dispatchedEq, _, executedEq⟩ := body_again ran
  exact (alike.execute (alike.dispatch holds mid dispatchedEq)).2 s' executedEq

/-- Passes in which the two choose alike. -/
theorem body (alike : Interchangeable P a b) (holds : P s)
    (chooses : b.schedule (forkOnSchedule s) = a.schedule (forkOnSchedule s)) :
    body b s = body a s := by
  have same : OsPAs.Sched.dispatch b s = OsPAs.Sched.dispatch a s := by
    simp only [OsPAs.Sched.dispatch, chooses]
  unfold OsPAs.Sched.body
  rw [same]
  cases dispatchedEq : OsPAs.Sched.dispatch a s with
  | error fault => rfl
  | ok mid =>
      have alikeThen := (alike.execute (alike.dispatch holds mid dispatchedEq)).1
      simp only [bind, Except.bind, alikeThen]

end Interchangeable

theorem body_of_schedule_error {fault : Fault}
    (failed : b.schedule (forkOnSchedule s) = .error fault) :
    body b s = .error fault := by
  unfold body dispatch
  simp only [failed, bind, Except.bind]

/-! ### Callbacks that leave the ranks alone -/

theorem acquireWith_sameRanks (c : Fin n) (resourceId : Nat) (s : Sim n) :
    Ensures (fun result => SameRanks s result.2)
      (acquireWith (fun _ s => s) (fun _ _ s => s) c resourceId s) := by
  unfold acquireWith
  refine (ensures_self _).bind fun r _ => ?_
  split
  · exact ensures_ok (sameRanks_of_procs rfl)
  · have asleep := (Steady.setStatus s c .blocked).ranks
    have linked : Ensures (SameRanks s)
        ((s.setStatus c .blocked).addTailWait r c) := by
      unfold Sim.addTailWait
      split
      · exact ensures_ok (asleep.trans (sameRanks_of_procs rfl))
      · exact ensures_error _
    exact linked.bind fun t same => ensures_ok same

theorem releaseWith_sameRanks
    (choose : Sim n → Fin n → List (Fin n) → Fin n) (c : Fin n)
    (resourceId : Nat) (s : Sim n) :
    Ensures (SameRanks s)
      (releaseWith (fun _ s => s) choose c resourceId s) := by
  unfold releaseWith
  refine (ensures_self _).bind fun r _ => ?_
  refine (ensures_self _).bind fun _ _ => ?_
  dsimp only
  split
  · exact ensures_ok (sameRanks_of_procs rfl)
  · rename_i first rest _
    refine (ensures_self _).bind fun _ _ => ?_
    generalize choose (s.setOwner r none) first (first :: rest) = waiter
    have unlinked : SameRanks s ((s.setOwner r none).delInitWait r waiter) :=
      sameRanks_of_procs rfl
    have woken := unlinked.trans (Steady.setStatus _ waiter .ready).ranks
    unfold Sim.addTailReady
    split
    · exact ensures_ok (woken.trans (sameRanks_of_procs rfl))
    · exact ensures_error _

theorem keepUnfinished_cases {next : Option (Fin n)}
    {pickNext : Sim n → Except Fault (Option (Fin n) × Sim n)}
    (scheduled : keepUnfinished pickNext s = .ok (next, s')) :
    s' = s ∨ pickNext s = .ok (next, s') := by
  unfold keepUnfinished at scheduled
  split at scheduled
  · exact Or.inr scheduled
  · split at scheduled
    · exact Or.inr scheduled
    · split at scheduled
      · exact Or.inl (Prod.mk.inj (Except.ok.inj scheduled)).2.symm
      · exact Or.inr scheduled

theorem fifoSchedule_sameRanks (s : Sim n) :
    Ensures (fun result => SameRanks s result.2) (fifoSchedule s) := by
  rintro ⟨chosen, s'⟩ scheduled
  refine sameRanks_of_procs ?_
  rcases keepUnfinished_cases scheduled with rfl | picked
  · rfl
  split at picked
  · rw [← (Prod.mk.inj (Except.ok.inj picked)).2]
  · rw [← (Prod.mk.inj (Except.ok.inj picked)).2]
    rfl

theorem prioSchedule_sameRanks (s : Sim n) :
    Ensures (fun result => SameRanks s result.2) (prioSchedule s) := by
  rintro ⟨chosen, s'⟩ scheduled
  refine sameRanks_of_procs ?_
  rcases keepAlone_cases scheduled with ⟨_, _, _, _, _, _, rfl⟩ | ⟨_, picked⟩
  · rfl
  split at picked
  · obtain ⟨_, rfl⟩ := Prod.mk.inj (Except.ok.inj picked)
    rfl
  · rcases switchTo_cases picked with ⟨_, _, _, _, _, _, rfl⟩ | ⟨t, _, yields, rfl⟩
    · rfl
    · exact yields.procs

/-! ### Equal lifespans -/

/-- All processes have the same lifespan. -/
def EqualLifespans (s : Sim n) : Prop :=
  ∀ p q, (s.procs p).lifespan = (s.procs q).lifespan

theorem sjf_like_fifo :
    Interchangeable (EqualLifespans (n := n)) fifoScheduler sjfScheduler where
  ranks s s' equal same p q := by
    rw [same.script.lifespan p, same.script.lifespan q]
    exact equal p q
  acquire s c resourceId equal := by
    refine ⟨rfl, (acquireWith_sameRanks c resourceId s).mono fun result same p q => ?_⟩
    rw [same.script.lifespan p, same.script.lifespan q]
    exact equal p q
  release s c resourceId equal := by
    refine ⟨rfl, (releaseWith_sameRanks _ c resourceId s).mono fun s' same p q => ?_⟩
    rw [same.script.lifespan p, same.script.lifespan q]
    exact equal p q
  schedule s equal := (fifoSchedule_sameRanks s).mono fun result same p q => by
    rw [same.script.lifespan p, same.script.lifespan q]
    exact equal p q

theorem sjfSchedule_of_equal (equal : EqualLifespans s) :
    sjfSchedule s = fifoSchedule s := by
  cases readyEq : s.readyqueue with
  | nil => simp only [sjfSchedule, fifoSchedule, keepUnfinished, readyEq]
  | cons first rest =>
      have notShorter : ∀ p ∈ first :: rest, ¬ shorterJob s p first :=
        fun p _ => Nat.not_lt.mpr (Nat.le_of_eq (equal first p))
      simp only [sjfSchedule, fifoSchedule, keepUnfinished, readyEq,
        scan_eq_first _ notShorter]

/-! ### Equal priorities -/

/-- All processes have the same priority, which is their original one. -/
def EqualPriorities (s : Sim n) : Prop :=
  ∃ prio, ∀ p, (s.procs p).prio = prio ∧ (s.procs p).prioOrig = prio

theorem EqualPriorities.of_sameRanks (equal : EqualPriorities s)
    (same : SameRanks s s') : EqualPriorities s' := by
  obtain ⟨prio, equal⟩ := equal
  exact ⟨prio, fun p => ⟨(same.prio p).trans (equal p).1,
    (same.script.prioOrig p).trans (equal p).2⟩⟩

theorem EqualPriorities.prio (equal : EqualPriorities s) (p q : Fin n) :
    (s.procs p).prio = (s.procs q).prio := by
  obtain ⟨prio, equal⟩ := equal
  exact (equal p).1.trans (equal q).1.symm

theorem EqualPriorities.not_higher (equal : EqualPriorities s) (p q : Fin n) :
    ¬ higherPrio s p q :=
  Nat.not_lt.mpr (Nat.le_of_eq (equal.prio p q))

theorem EqualPriorities.highestPrio (equal : EqualPriorities s) (first : Fin n)
    (queue : List (Fin n)) : highestPrio s first queue = first :=
  scan_eq_first _ fun p _ => equal.not_higher p first

theorem EqualPriorities.restorePrio (equal : EqualPriorities s) (c : Fin n) :
    restorePrio c s = s := by
  obtain ⟨prio, equal⟩ := equal
  rw [OsPAs.Sched.restorePrio, Sim.setPrio_eq_withPrio, (equal c).2, ← (equal c).1,
    Function.update_eq_self, Sim.withPrio_self]

theorem EqualPriorities.inheritPrio (equal : EqualPriorities s) (owner c : Fin n) :
    inheritPrio owner c s = s :=
  if_neg (equal.not_higher c owner)

theorem pip_like_prio :
    Interchangeable (EqualPriorities (n := n)) prioScheduler pipScheduler where
  ranks _ _ equal same := equal.of_sameRanks same
  acquire s c resourceId equal := by
    refine ⟨?_, (acquireWith_sameRanks c resourceId s).mono fun _ same =>
      equal.of_sameRanks same⟩
    simp only [pipScheduler, prioScheduler, pipAcquire, prioAcquire, acquireWith,
      equal.inheritPrio]
  release s c resourceId equal := by
    refine ⟨?_, (releaseWith_sameRanks _ c resourceId s).mono fun _ same =>
      equal.of_sameRanks same⟩
    simp only [pipScheduler, prioScheduler, pipRelease, prioRelease, releaseWith,
      equal.restorePrio]
  schedule s equal := (prioSchedule_sameRanks s).mono fun _ same =>
    equal.of_sameRanks same

theorem rr_like_prio :
    Interchangeable (EqualPriorities (n := n)) prioScheduler rrScheduler where
  ranks _ _ equal same := equal.of_sameRanks same
  acquire s c resourceId equal :=
    ⟨rfl, (acquireWith_sameRanks c resourceId s).mono fun _ same =>
      equal.of_sameRanks same⟩
  release s c resourceId equal := by
    refine ⟨?_, (releaseWith_sameRanks _ c resourceId s).mono fun _ same =>
      equal.of_sameRanks same⟩
    have unowned (r : Fin nrResources) : EqualPriorities (s.setOwner r none) :=
      equal.of_sameRanks (sameRanks_of_procs rfl)
    simp only [rrScheduler, prioScheduler, fcfsRelease, prioRelease, releaseWith,
      (unowned _).highestPrio, firstWaiter]
    rfl
  schedule s equal := (prioSchedule_sameRanks s).mono fun _ same =>
    equal.of_sameRanks same

theorem keepAlone_congr
    {pickNext pickNext' : Sim n → Except Fault (Option (Fin n) × Sim n)}
    (same : pickNext s = pickNext' s) :
    keepAlone pickNext s = keepAlone pickNext' s := by
  unfold keepAlone
  rw [same]

/-- Where no process is blocked that is to be linked into the ready queue. -/
theorem rrSchedule_of_equal (equal : EqualPriorities s) (loose : CurrentLoose s)
    (calm : Calm s) : rrSchedule s = prioSchedule s := by
  refine keepAlone_congr ?_
  cases readyEq : s.readyqueue with
  | nil => rfl
  | cons first rest =>
      have best : scan (higherPrio s) first (first :: rest) = first :=
        equal.highestPrio first (first :: rest)
      simp only [best]
      cases isCurrent : s.current with
      | none =>
          simp only [switchTo, requeueUnfinished, Sim.delInitReady, isCurrent]
          rfl
      | some c =>
          have yields : ¬ (higherPrio s c first ∧ unfinished s c) :=
            fun both => equal.not_higher c first both.1
          by_cases alive : unfinished s c
          · have awake : ¬ isBlocked s c := fun asleep =>
              (calm c isCurrent asleep).elim (by simp [readyEq]) fun done =>
                done alive
            have detached := loose c isCurrent awake
            have linked := requeueUnfinished_of_unfinished
              (s := s.delInitReady first) isCurrent alive
              (detached_delInitReady detached)
            simp only [linked, switchTo, isCurrent, if_neg awake,
              if_neg yields, if_pos (Or.inl (equal.prio c first)),
              requeueUnfinished_of_unfinished isCurrent alive detached]
            simp [Sim.delInitReady, readyEq, isCurrent, bind, Except.bind, pure,
              Except.pure]
          · have linked := requeueUnfinished_of_finished
              (s := s.delInitReady first) isCurrent alive
            simp only [linked, switchTo, isCurrent, if_neg yields,
              if_pos (Or.inl (equal.prio c first)),
              requeueUnfinished_of_finished isCurrent alive]
            split <;> rfl

/-! ### Processes that start together -/

theorem sjf_like_stcf :
    Interchangeable (fun _ : Sim n => True) sjfScheduler stcfScheduler where
  ranks _ _ _ _ := trivial
  acquire _ _ _ _ := ⟨rfl, fun _ _ => trivial⟩
  release _ _ _ _ := ⟨rfl, fun _ _ => trivial⟩
  schedule _ _ := fun _ _ => trivial

/-- The process that SJF takes is the unfinished current one, or one that nobody
ready is shorter than. -/
theorem sjfSchedule_least {next : Fin n} (awake : Awake s)
    (scheduled : sjfSchedule s = .ok (some next, s')) :
    s.current = some next ∧ unfinished s next ∨
      ∀ p ∈ s.readyqueue, (s.procs next).lifespan ≤ (s.procs p).lifespan := by
  by_cases kept : ∃ c, s.current = some c ∧ unfinished s c
  · obtain ⟨c, isCurrent, alive⟩ := kept
    have keeps := sjfScheduler_nonPreemptive s c isCurrent (awake c) alive
    obtain ⟨isNext, _⟩ := Prod.mk.inj (Except.ok.inj
      (keeps.symm.trans scheduled))
    rw [← Option.some.inj isNext]
    exact Or.inl ⟨isCurrent, alive⟩
  · refine Or.inr fun p isReady => ?_
    have finished : ∀ c, s.current = some c → ¬ unfinished s c :=
      fun c isCurrent alive => kept ⟨c, isCurrent, alive⟩
    rw [sjfSchedule, keepUnfinished_of_finished finished] at scheduled
    split at scheduled
    · simp at scheduled
    · rename_i first rest readyEq
      obtain ⟨isNext, _⟩ := Prod.mk.inj (Except.ok.inj scheduled)
      rw [← Option.some.inj isNext]
      rw [readyEq] at isReady
      exact Nat.not_lt.mp (not_better_scan (shorterJob s)
        (fun a b => by unfold shorterJob; omega)
        (fun a b c => by unfold shorterJob; omega) first (first :: rest)
        (Or.inr isReady))

/-- Where those ready have not run yet and nobody among them beats the current
process, STCF chooses as SJF does. -/
theorem stcfSchedule_of_unbeaten (allShort : AllShort s)
    (fresh : ∀ p ∈ s.readyqueue, (s.procs p).age = 0)
    (ahead : ∀ c, s.current = some c → unfinished s c → ∀ p ∈ s.readyqueue,
      timeToComplete s c ≤ timeToComplete s p) :
    stcfSchedule s = sjfSchedule s := by
  have awake : Awake s := allShort.awake
  by_cases kept : ∃ c, s.current = some c ∧ unfinished s c
  · obtain ⟨c, isCurrent, alive⟩ := kept
    rw [show sjfSchedule s = .ok (some c, s) from
      sjfScheduler_nonPreemptive s c isCurrent (awake c) alive]
    by_cases nobody : s.readyqueue = []
    · simp [stcfSchedule, keepAlone, isCurrent, awake c, nobody, alive]
    · rw [stcfSchedule, keepAlone_of_not_alone awake
        (fun _ _ alone => nobody alone.1), if_neg nobody]
      have unbeaten : shortestTime s (curTc s) s.readyqueue = none := by
        cases found : shortestTime s (curTc s) s.readyqueue with
        | none => rfl
        | some best =>
            obtain ⟨isReady, below, _⟩ := scanBelow_some found
            rw [curTc_of_unfinished isCurrent (awake c) alive] at below
            exact absurd below
              (Nat.not_lt.mpr (ahead c isCurrent alive best isReady))
      rw [unbeaten, ← isCurrent]
  · have finished : ∀ c, s.current = some c → ¬ unfinished s c :=
      fun c isCurrent alive => kept ⟨c, isCurrent, alive⟩
    rw [stcfSchedule, keepAlone_of_not_alone awake
        (fun c isCurrent alone => finished c isCurrent alone.2),
      sjfSchedule, keepUnfinished_of_finished finished]
    cases readyEq : s.readyqueue with
    | nil => rfl
    | cons first rest =>
        rw [readyEq] at fresh
        have best : shortestTime s (curTc s) (first :: rest) =
            some (scan (shorterJob s) first (first :: rest)) := by
          rw [curTc_of_done fun c isCurrent => Or.inr (finished c isCurrent)]
          refine scanBelow_eq_scan (shorterJob s) _ (allShort.short first)
            fun p inP q inQ => ?_
          unfold shorterJob timeToComplete
          rw [fresh p inP, fresh q inQ, subUInt_of_le (Nat.zero_le _),
            subUInt_of_le (Nat.zero_le _), Nat.sub_zero, Nat.sub_zero]
        have stays : requeueUnfinished s = .ok s := by
          cases isCurrent : s.current with
          | none => simp only [requeueUnfinished, isCurrent]
          | some c =>
              exact requeueUnfinished_of_finished isCurrent (finished c isCurrent)
        rw [if_neg (List.cons_ne_nil first rest), best]
        simp only [stays]
        rfl

/-- Whoever waits for the processor has not run, and none of them is shorter
than the rest of the current process. -/
structure Batch (s : Sim n) : Prop where
  fresh : ∀ p, p ∈ s.forkqueue ∨ p ∈ s.readyqueue → (s.procs p).age = 0
  ahead : ∀ c, s.current = some c → ∀ p ∈ s.readyqueue,
    (s.procs c).lifespan ≤ (s.procs p).lifespan + (s.procs c).age

end Passes

section Batches

variable {script : List ProcessBlock} {k : Nat} {s s' mid : Sim script.length}

/-- When everybody starts together, nobody joins those who are ready. -/
theorem Timed.readyqueue_forked_of_batch (timed : Timed script k s)
    (batch : ∀ p q, startOf script p = startOf script q) {p : Fin script.length}
    (started : startOf script p < k) :
    (forkOnSchedule s).readyqueue = s.readyqueue := by
  rw [timed.readyqueue_forked, List.filter_eq_nil_iff.mpr, List.append_nil]
  intro q _ dueNow
  have same := batch p q
  have isNow := of_decide_eq_true dueNow
  omega

/-- What one pass of SJF preserves. -/
theorem Batch.carried (holds : Batch s) (jobs : JobScript script)
    (batch : ∀ p q, startOf script p = startOf script q)
    (reached : doSimulation script sjfScheduler k = .ok (.again s))
    (pass : PassOf script sjfScheduler k s mid)
    (executedEq : execute sjfScheduler mid = .ok s')
    (next : doSimulation script sjfScheduler (k + 1) = .ok (.again s')) :
    Batch s' := by
  have serves : Serves script AllShort sjfScheduler := jobs.serves .sjf
  have noEntries := jobs.entries_eq
  have timed := serves.timed reached
  have forks := timed.settled.sound.forked
  have awake := timed.settled.awake_forked noEntries
  have ticked := pass.prepared.ticked noEntries executedEq
  have linked := pass.prepared.dispatched.linked
  obtain ⟨chosen, scheduled, choice, readyChosen⟩ := pass.chosen serves reached
  have lifespan (p : Fin script.length) :
      (s'.procs p).lifespan = (s.procs p).lifespan := by
    rw [timed.lifespan, (serves.timed next).lifespan]
  have age (p : Fin script.length) : (s'.procs p).age =
      (s.procs p).age + if mid.current = some p then 1 else 0 := by
    rw [ticked.ages, (pass.dispatching.entries p).age]
  have stillReady {p : Fin script.length} (isReady : p ∈ s'.readyqueue) :
      p ∈ mid.readyqueue ∧ p ∈ (forkOnSchedule s).readyqueue := by
    rw [pass.readyqueue_executed serves noEntries reached executedEq] at isReady
    refine ⟨isReady, sjfScheduler_nonPreemptive.chosen_readyqueue scheduled
      choice ?_⟩
    rwa [← readyChosen]
  constructor
  · intro p waits
    have waited : (s.procs p).age = 0 ∧ mid.current ≠ some p := by
      rcases waits with isForking | isReady
      · rw [ticked.forkqueue] at isForking
        refine ⟨holds.fresh p (Or.inl ?_), fun runs =>
          (linked.detached_of_run runs).1 isForking⟩
        rw [pass.dispatching.forkqueue] at isForking
        exact List.mem_of_mem_filter isForking
      · obtain ⟨inMid, wasReady⟩ := stillReady isReady
        refine ⟨holds.fresh p ?_, fun runs =>
          (linked.detached_of_run runs).2.1 inMid⟩
        rw [forks.readyqueue] at wasReady
        exact (List.mem_append.mp wasReady).symm.imp List.mem_of_mem_filter id
    rw [age, if_neg waited.2, waited.1]
  · intro c isCurrent p isReady
    rw [ticked.current] at isCurrent
    rw [isCurrent] at scheduled
    have wasReady := (stillReady isReady).2
    have older : (s.procs c).age ≤ (s'.procs c).age := by
      rw [age]
      exact Nat.le_add_right _ _
    rw [lifespan, lifespan]
    rcases sjfSchedule_least awake scheduled with ⟨wasCurrent, _⟩ | least
    · rw [forks.current] at wasCurrent
      rw [timed.readyqueue_forked_of_batch batch
        (timed.started_of_current noEntries wasCurrent)] at wasReady
      have bound := holds.ahead c wasCurrent p wasReady
      omega
    · have bound := least p wasReady
      rw [forks.procs] at bound
      omega

/-- At the top of every pass of SJF on processes that start together. -/
theorem batch_of_reached (jobs : JobScript script)
    (batch : ∀ p q, startOf script p = startOf script q)
    (reached : doSimulation script sjfScheduler k = .ok (.again s)) :
    Batch s := by
  have serves : Serves script AllShort sjfScheduler := jobs.serves .sjf
  refine serves.invariant (fun _ s => Batch s) ?_ ?_ reached
  · exact ⟨fun _ _ => rfl, fun c isCurrent => by simp [load] at isCurrent⟩
  · intro k s mid s' reached holds pass _ executedEq next
    exact holds.carried jobs batch reached pass executedEq next

/-- In the passes of such a run STCF chooses as SJF does. -/
theorem Batch.chooses (holds : Batch s) (jobs : JobScript script)
    (batch : ∀ p q, startOf script p = startOf script q)
    (reached : doSimulation script sjfScheduler k = .ok (.again s)) :
    stcfSchedule (forkOnSchedule s) = sjfSchedule (forkOnSchedule s) := by
  have serves : Serves script AllShort sjfScheduler := jobs.serves .sjf
  have timed := serves.timed reached
  have forks := timed.settled.sound.forked
  have fresh (p : Fin script.length)
      (isReady : p ∈ (forkOnSchedule s).readyqueue) :
      ((forkOnSchedule s).procs p).age = 0 := by
    rw [forks.procs]
    rw [forks.readyqueue] at isReady
    exact holds.fresh p
      ((List.mem_append.mp isReady).symm.imp List.mem_of_mem_filter id)
  refine stcfSchedule_of_unbeaten (serves.guard_of_reached reached) fresh ?_
  intro c isCurrent _ p isReady
  have untouched := fresh p isReady
  rw [forks.current] at isCurrent
  rw [timed.readyqueue_forked_of_batch batch
    (timed.started_of_current jobs.entries_eq isCurrent)] at isReady
  have bound := holds.ahead c isCurrent p isReady
  have bounded := timed.settled.whole.bounded c
  unfold timeToComplete
  rw [untouched, forks.procs, subUInt_of_le bounded,
    subUInt_of_le (Nat.zero_le _)]
  omega

end Batches

/-! ### Whole runs -/

/-- On a script whose lifespans are all equal SJF does what FIFO does, whatever
resources the processes ask for. -/
theorem equal_lifespans_come_first (script : List ProcessBlock)
    (equal : ∀ block ∈ script, ∀ other ∈ script,
      block.lifespan = other.lifespan) (k : Nat) :
    doSimulation script sjfScheduler k = doSimulation script fifoScheduler k := by
  have initially : EqualLifespans (load script) := fun p q =>
    congrArg UInt32.toNat
      (equal _ (List.get_mem script p) _ (List.get_mem script q))
  refine iterate_congr (fun k s reached => ?_) k
  have equalNow := sjf_like_fifo.reached initially reached
  exact sjf_like_fifo.body equalNow (sjfSchedule_of_equal
    (sjf_like_fifo.ranks _ _ equalNow (forkOnSchedule_sameRanks s)))

/-- Three processes of one lifespan, of which the first holds what the others
ask for. -/
def equalJobs : List ProcessBlock :=
  [{ pid := 1, start := 0, lifespan := 4, prio := 7
     acquires := [⟨1, 0, 3⟩] },
   { pid := 2, start := 1, lifespan := 4, prio := 7
     acquires := [⟨1, 1, 2⟩] },
   { pid := 3, start := 1, lifespan := 4, prio := 7 }]

theorem equal_lifespans_come_first_equalJobs :
    doSimulation equalJobs sjfScheduler 12 =
      doSimulation equalJobs fifoScheduler 12 :=
  equal_lifespans_come_first equalJobs (by decide) 12

/-- The lists between two ticks of the priority policy, on any script. -/
theorem prio_tidy {script : List ProcessBlock} {k : Nat}
    {s : Sim script.length}
    (reached : doSimulation script prioScheduler k = .ok (.again s)) :
    Tidy s := by
  refine iterate_invariant (fun _ s => Tidy s) (load_tidy script) ?_ reached
  intro k s s' _ tidy ran
  obtain ⟨mid, dispatchedEq, _, executedEq⟩ := body_again ran
  obtain ⟨_, _, _, _, linked, retired⟩ := tidy.dispatched_cases
    (Policy.contract (show Policy.prio ∈ statusAware by decide)) trivial
    dispatchedEq
  have linkedMid : Linked mid mid.current := by
    rw [retired.current]
    exact linked.retired retired
  exact (linkedMid.execute rfl rfl s' executedEq).1

/-- On a script whose priorities are all equal PIP does what the priority policy
does, and so does round-robin, unless it links a process that is still linked; on a
script without acquire lines it never does that. -/
theorem equal_priorities_take_turns (script : List ProcessBlock)
    (equal : ∀ block ∈ script, ∀ other ∈ script, block.prio = other.prio)
    (k : Nat) :
    doSimulation script pipScheduler k = doSimulation script prioScheduler k ∧
      (doSimulation script rrScheduler k = doSimulation script prioScheduler k ∨
        doSimulation script rrScheduler k = .error .linkedTwice) ∧
      (PlainJobs script →
        doSimulation script rrScheduler k =
          doSimulation script prioScheduler k) := by
  have initially : EqualPriorities (load script) := by
    cases script with
    | nil => exact ⟨0, fun p => p.elim0⟩
    | cons block rest =>
        refine ⟨block.prio.toNat, fun p => ?_⟩
        have same := equal _ (List.get_mem (block :: rest) p) block
          List.mem_cons_self
        exact ⟨congrArg UInt32.toNat same, congrArg UInt32.toNat same⟩
  have turns : doSimulation script rrScheduler k =
        doSimulation script prioScheduler k ∨
      doSimulation script rrScheduler k = .error .linkedTwice := by
    refine iterate_eq_or_error (fun k s reached => ?_) k
    have equalNow := rr_like_prio.reached initially reached
    have tidy := prio_tidy reached
    by_cases calm : Calm (forkOnSchedule s)
    · exact Or.inl (rr_like_prio.body equalNow (rrSchedule_of_equal
        (equalNow.of_sameRanks (forkOnSchedule_sameRanks s)) tidy.loose_forked
        calm))
    · exact Or.inr (body_of_schedule_error
        (rrSchedule_of_not_calm calm tidy.linked_forked.blocked))
  refine ⟨iterate_congr (fun k s reached => ?_) k, turns, fun plain =>
    turns.resolve_right (plain.serves_rr.never_faults k .linkedTwice)⟩
  exact pip_like_prio.body (pip_like_prio.reached initially reached) rfl

/-- The same processes, when nobody asks for anything. -/
def modestJobs : List ProcessBlock :=
  equalJobs.map fun block => { block with acquires := [] }

theorem equal_priorities_take_turns_equalJobs :
    (doSimulation equalJobs pipScheduler 12 =
        doSimulation equalJobs prioScheduler 12 ∧
      (doSimulation equalJobs rrScheduler 12 =
          doSimulation equalJobs prioScheduler 12 ∨
        doSimulation equalJobs rrScheduler 12 = .error .linkedTwice)) ∧
      doSimulation modestJobs rrScheduler 12 =
        doSimulation modestJobs prioScheduler 12 := by
  obtain ⟨samePip, sameRr, _⟩ := equal_priorities_take_turns equalJobs (by decide) 12
  obtain ⟨_, _, neverFails⟩ := equal_priorities_take_turns modestJobs (by decide) 12
  exact ⟨⟨samePip, sameRr⟩, neverFails (by decide)⟩

/-- On jobs that all start at the same tick STCF does what SJF does. -/
theorem stcf_is_sjf_for_batches (script : List ProcessBlock)
    (jobs : JobScript script)
    (batch : ∀ p q, startOf script p = startOf script q) (k : Nat) :
    doSimulation script stcfScheduler k =
      doSimulation script sjfScheduler k := by
  refine iterate_congr (fun k s reached => ?_) k
  exact sjf_like_stcf.body trivial
    ((batch_of_reached jobs batch reached).chooses jobs batch reached)

/-- Three jobs that start together, the shortest of them last. -/
def startTogether : List ProcessBlock :=
  [{ pid := 1, start := 2, lifespan := 4 },
   { pid := 2, start := 2, lifespan := 4 },
   { pid := 3, start := 2, lifespan := 1 }]

theorem stcf_is_sjf_for_batches_startTogether :
    doSimulation startTogether stcfScheduler 12 =
      doSimulation startTogether sjfScheduler 12 :=
  stcf_is_sjf_for_batches startTogether (by decide) (by decide) 12

end OsPAs.Sched
