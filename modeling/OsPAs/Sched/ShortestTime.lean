/-
Module: OsPAs.Sched.ShortestTime
Purpose: Whom STCF picks, and what a pass does on scripts without acquire
  lines, where nobody is ever blocked and a tick gives its process one more unit
  of age.
Trusted boundary: none
Main exports: JobScript, Awake, AllShort, StcfPick, stcfSchedule_shortest,
  Settled.candidate, Picked, Ticked, Prepared.ticked
-/
import OsPAs.Sched.Preference
import OsPAs.Sched.Timing

namespace OsPAs.Sched

open Lib

variable {n : Nat}

/-- No acquire lines, and every lifespan between one and below `MAX_TC`. -/
def JobScript (script : List ProcessBlock) : Prop :=
  ∀ block ∈ script, block.acquires = [] ∧ 1 ≤ block.lifespan.toNat ∧
    block.lifespan.toNat < maxTc

instance (script : List ProcessBlock) : Decidable (JobScript script) :=
  inferInstanceAs (Decidable (∀ _ ∈ script, _ ∧ _ ∧ _))

theorem JobScript.wellFormed {script : List ProcessBlock}
    (jobs : JobScript script) : WellFormed script := by
  intro block member
  obtain ⟨noAcquires, lives, _⟩ := jobs block member
  refine ⟨lives, fun line lineMember => ?_⟩
  rw [noAcquires] at lineMember
  simp at lineMember

theorem JobScript.entries_eq {script : List ProcessBlock}
    (jobs : JobScript script) (p : Fin script.length) :
    entries script p = [] := by
  unfold entries
  rw [(jobs _ (List.get_mem script p)).1]
  rfl

/-! ### The choice of STCF -/

/-- Nobody is blocked. -/
def Awake (s : Sim n) : Prop := ∀ p, ¬ isBlocked s p

/-- Nobody is blocked, and everybody ready is in reach of `MAX_TC`. -/
structure AllShort (s : Sim n) : Prop where
  awake : ∀ p, ¬ isBlocked s p
  short : ∀ p, timeToComplete s p < maxTc

/-- Where nobody is blocked and everybody is in reach of `MAX_TC`, STCF keeps
the contract, and never idles while somebody is ready. -/
theorem stcfScheduler_allShort :
    Contract True (AllShort (n := n)) stcfScheduler :=
  contract_of_schedule
    (fun _ guard => stcfSchedule_chooses True
      (fun c _ asleep => absurd asleep (guard.awake c))
      (fun c _ asleep => absurd asleep (guard.awake c))
      fun _ p _ => guard.short p)
    (fun _ => prioOnly_id) (fun _ _ => prioOnly_id) (fun _ => prioOnly_id)
    firstWaiter_mem

/-- The bound of the scan is the remaining time of an unfinished current
process. -/
theorem curTc_of_unfinished {s : Sim n} {c : Fin n} (isCurrent : s.current = some c)
    (awake : ¬ isBlocked s c) (alive : unfinished s c) :
    curTc s = timeToComplete s c := by
  unfold curTc
  rw [isCurrent]
  simp only [if_neg awake, if_pos alive]

/-- What `stcf_schedule` returns: the current process while it is alone, the
first ready process of least time to complete among those below the bound, and
whatever is current if there is none. -/
inductive StcfPick (s : Sim n) : Option (Fin n) → Prop where
  | alone {c : Fin n} (nobody : s.readyqueue = []) (isCurrent : s.current = some c)
      (awake : ¬ isBlocked s c) (alive : unfinished s c) : StcfPick s (some c)
  | idle (nobody : s.readyqueue = []) (done : CurrentDone s) : StcfPick s none
  | unbeaten (somebody : s.readyqueue ≠ [])
      (above : ∀ q ∈ s.readyqueue, curTc s ≤ timeToComplete s q) :
      StcfPick s s.current
  | beaten {p : Fin n} (isReady : p ∈ s.readyqueue)
      (below : timeToComplete s p < curTc s)
      (least : ∀ q ∈ s.readyqueue, timeToComplete s p ≤ timeToComplete s q) :
      StcfPick s (some p)

theorem stcfSchedule_picks {s s' : Sim n} {next : Option (Fin n)}
    (scheduled : stcfSchedule s = .ok (next, s')) : StcfPick s next := by
  rcases keepAlone_cases scheduled with
    ⟨c, rfl, isCurrent, awake, alive, nobody, _⟩ | ⟨duty, picked⟩
  · exact .alone nobody isCurrent awake alive
  · by_cases nobody : s.readyqueue = []
    · rw [if_pos nobody] at picked
      obtain ⟨rfl, _⟩ := Prod.mk.inj (Except.ok.inj picked)
      exact .idle nobody (duty.done nobody)
    · rw [if_neg nobody] at picked
      cases found : shortestTime s (curTc s) s.readyqueue with
      | none =>
          rw [found] at picked
          obtain ⟨rfl, _⟩ := Prod.mk.inj (Except.ok.inj picked)
          exact .unbeaten nobody (scanBelow_none found)
      | some best =>
          rw [found] at picked
          obtain ⟨isReady, below, least⟩ := scanBelow_some found
          have isBest : next = some best := by
            cases requeued : requeueUnfinished s with
            | error fault =>
                simp [requeued, bind, Except.bind] at picked
            | ok result =>
                simp only [requeued, bind, Except.bind, pure, Except.pure]
                  at picked
                exact (Prod.mk.inj (Except.ok.inj picked)).1.symm
          rw [isBest]
          exact .beaten isReady below least

/-- A current process that nobody ready beats has work left: anybody beats a
finished one. -/
theorem AllShort.unfinished_of_unbeaten {s : Sim n} {c : Fin n}
    (allShort : AllShort s) (isCurrent : s.current = some c)
    (somebody : s.readyqueue ≠ [])
    (above : ∀ q ∈ s.readyqueue, curTc s ≤ timeToComplete s q) :
    unfinished s c := by
  by_contra finished
  have done : CurrentDone s := fun other isOther => Or.inr (by
    rw [Option.some.inj (isOther.symm.trans isCurrent)]
    exact finished)
  obtain ⟨q, member⟩ := List.exists_mem_of_ne_nil _ somebody
  have bound := above q member
  rw [curTc_of_done done] at bound
  exact absurd (allShort.short q) (Nat.not_lt.mpr bound)

/-- The process that STCF returns has the least time to complete among the
ready ones and the unfinished current one. -/
theorem stcfSchedule_shortest {s s' : Sim n} {next p : Fin n}
    (allShort : AllShort s) (scheduled : stcfSchedule s = .ok (some next, s'))
    (candidate : p ∈ s.readyqueue ∨ s.current = some p ∧ unfinished s p) :
    timeToComplete s next ≤ timeToComplete s p := by
  have picks := stcfSchedule_picks scheduled
  generalize isNext : some next = returned at picks
  cases picks with
  | alone nobody isCurrent _ _ =>
      rcases candidate with ready | ⟨isCandidate, _⟩
      · rw [nobody] at ready
        simp at ready
      · rw [Option.some.inj (isNext.trans (isCurrent.symm.trans isCandidate))]
  | idle => simp at isNext
  | unbeaten somebody above =>
      have alive := allShort.unfinished_of_unbeaten isNext.symm somebody above
      rcases candidate with ready | ⟨isCandidate, _⟩
      · rw [← curTc_of_unfinished isNext.symm (allShort.awake next) alive]
        exact above p ready
      · rw [Option.some.inj (isNext.trans isCandidate)]
  | beaten isReady below least =>
      obtain rfl := Option.some.inj isNext
      rcases candidate with ready | ⟨isCurrent, alive⟩
      · exact least p ready
      · rw [← curTc_of_unfinished isCurrent (allShort.awake p) alive]
        exact Nat.le_of_lt below

/-! ### One pass -/

section Pass

variable {all : Fin n → List ResourceSchedule} {s s' : Sim n}

/-- Without entries nobody waits. -/
theorem Settled.awake_of_noEntries (settled : Settled all s)
    (noEntries : ∀ p, all p = []) (p : Fin n) : ¬ isBlocked s p := by
  intro asleep
  obtain ⟨r, member⟩ := settled.sound.linked.blocked p asleep
  have due := settled.waits.asks p r member
  have balance := (settled.books.ledger p).balance
  rw [noEntries, List.filter_nil, List.perm_nil,
    List.append_eq_nil_iff] at balance
  unfold Process.firstDue at due
  rw [balance.1] at due
  simp at due

theorem Settled.awake_forked (settled : Settled all s)
    (noEntries : ∀ p, all p = []) : Awake (forkOnSchedule s) := fun p =>
  (settled.sound.forked.isBlocked_iff p).not.mpr
    (settled.awake_of_noEntries noEntries p)

theorem Settled.allShort (settled : Settled all s)
    (noEntries : ∀ p, all p = [])
    (short : ∀ p, (s.procs p).lifespan < maxTc) :
    AllShort (forkOnSchedule s) where
  awake := settled.awake_forked noEntries
  short := fun p => by
    have bounded := settled.whole.bounded p
    have below := short p
    unfold timeToComplete
    rw [settled.sound.forked.procs, subUInt_of_le bounded]
    omega

/-- A process that has been forked and is not finished is ready or current when
`schedule` is called. -/
theorem Settled.candidate (settled : Settled all s)
    (noEntries : ∀ p, all p = []) {p : Fin n}
    (forked : p ∉ (forkOnSchedule s).forkqueue)
    (alive : unfinished (forkOnSchedule s) p) :
    p ∈ (forkOnSchedule s).readyqueue ∨
      (forkOnSchedule s).current = some p ∧ unfinished (forkOnSchedule s) p := by
  have forks := settled.sound.forked
  have whole := settled.whole_forked
  have present : ((forkOnSchedule s).procs p).status ≠ .exit := fun exited =>
    Nat.ne_of_lt alive (whole.finished p exited)
  have one := whole.accounted p present
  unfold tally at one
  rw [List.count_eq_zero.mpr forked] at one
  have nowhere : occurrences (forkOnSchedule s).waitqueue p = 0 := by
    refine occurrences_eq_zero.mpr fun r member => ?_
    rw [forks.waitqueue] at member
    exact settled.awake_of_noEntries noEntries p
      (settled.sound.linked.waiting p r member)
  rw [nowhere] at one
  by_cases isRunner : runner (forkOnSchedule s) = some p
  · exact Or.inr ⟨(runner_eq_some.mp isRunner).1, alive⟩
  · rw [if_neg isRunner] at one
    exact Or.inl (List.count_pos_iff.mp (by omega))

/-- What a pass of STCF hands the processor to. -/
structure Picked (s mid : Sim n) : Prop where
  chosen : ∀ c, mid.current = some c →
    c ∉ mid.forkqueue ∧ unfinished s c ∧
      ∀ p, p ∉ mid.forkqueue → unfinished s p →
        (s.procs c).lifespan - (s.procs c).age ≤
          (s.procs p).lifespan - (s.procs p).age
  idle : mid.current = none → ∀ p, p ∉ mid.forkqueue → ¬ unfinished s p

theorem Settled.picked (settled : Settled all s) (noEntries : ∀ p, all p = [])
    (short : ∀ p, (s.procs p).lifespan < maxTc) {mid : Sim n}
    (dispatchedEq : OsPAs.Sched.dispatch stcfScheduler s = .ok mid)
    (dispatching : Dispatching s mid) : Picked s mid := by
  have allShort := settled.allShort noEntries short
  have forks := settled.sound.forked
  obtain ⟨next, s₁, scheduled, choice, linked, retired⟩ :=
    settled.sound.dispatched_cases stcfScheduler_allShort allShort dispatchedEq
  have sameQueue : mid.forkqueue = (forkOnSchedule s).forkqueue :=
    dispatching.forkqueue.trans forks.forkqueue.symm
  have isNext : mid.current = next := retired.current
  have aliveForked (p : Fin n) :
      unfinished (forkOnSchedule s) p ↔ unfinished s p := by
    unfold unfinished
    rw [forks.procs]
  have timeOf (p : Fin n) : timeToComplete (forkOnSchedule s) p =
      (s.procs p).lifespan - (s.procs p).age := by
    unfold timeToComplete
    rw [forks.procs, subUInt_of_le (settled.whole.bounded p)]
  constructor
  · rw [sameQueue]
    intro c isCurrent
    obtain rfl : next = some c := isNext.symm.trans isCurrent
    have alive := settled.whole_forked.chosen_unfinished choice (.inl trivial)
    refine ⟨fun member => ?_, (aliveForked c).mp alive, fun p forked alive => ?_⟩
    · -- the chosen process is in no list any more
      have loose := linked.detached_of_run rfl
      refine loose.1 ?_
      change c ∈ s₁.forkqueue
      rw [choice.clock.1]
      exact member
    · have least := stcfSchedule_shortest allShort scheduled
        (settled.candidate noEntries forked ((aliveForked p).mpr alive))
      rwa [timeOf, timeOf] at least
  · rw [sameQueue]
    intro isIdle p forked alive
    obtain rfl : next = none := isNext.symm.trans isIdle
    rcases settled.candidate noEntries forked ((aliveForked p).mpr alive) with
      ready | ⟨isCurrent, alive⟩
    · cases choice with
      | idle nobody =>
          rw [nobody trivial] at ready
          simp at ready
    · cases choice with
      | idle nobody done =>
          rcases done p isCurrent with asleep | finished
          · exact allShort.awake p asleep
          · exact finished alive

/-- The clock of a state: what a tick without requests changes. -/
structure Ticked (s s' : Sim n) : Prop where
  ages : ∀ p, (s'.procs p).age =
    (s.procs p).age + if s.current = some p then 1 else 0
  current : s'.current = s.current
  forkqueue : s'.forkqueue = s.forkqueue
  ticks : s'.ticks = toUInt (s.ticks + 1)

/-- A tick of a process without entries: it runs, and grows older. -/
theorem execute_of_noEntries {sched : Scheduler n} {c : Fin n}
    (isCurrent : s.current = some c) (notFreed : (s.procs c).status ≠ .exit)
    (loose : s.detached c) (noWants : (s.procs c).resourcesToAcquire = [])
    (noHolds : (s.procs c).resourcesHolding = []) :
    execute sched s = .ok (nextTick ((growOlder c
      (((s.setStatus c .running).setToAcquire c []).print (.ran c))).setHolding
        c [])) := by
  have wants : ((s.setStatus c .running).procs c).resourcesToAcquire = [] := by
    rw [setStatus_procs]
    exact noWants
  have holds : ((growOlder c (((s.setStatus c .running).setToAcquire c
      []).print (.ran c))).procs c).resourcesHolding = [] := by
    rw [growOlder_procs, Sim.print_procs, setToAcquire_procs, setStatus_procs]
    exact noHolds
  rw [execute_of_current isCurrent notFreed loose]
  unfold runCurrentAcquire
  rw [wants]
  simp only [acquireLoop, bind, Except.bind, pure, Except.pure, if_true]
  unfold runCurrentRelease
  rw [holds]
  rfl

theorem Prepared.execute_of_noEntries {sched : Scheduler n} {c : Fin n}
    (prepared : Prepared all s) (noEntries : ∀ p, all p = [])
    (isCurrent : s.current = some c) :
    OsPAs.Sched.execute sched s = .ok (nextTick ((growOlder c
      (((s.setStatus c .running).setToAcquire c []).print (.ran c))).setHolding
        c [])) := by
  have balance := (prepared.books.ledger c).balance
  rw [noEntries, List.filter_nil, List.perm_nil, List.append_eq_nil_iff,
    List.map_eq_nil_iff] at balance
  exact OsPAs.Sched.execute_of_noEntries isCurrent (prepared.fit c isCurrent).2
    (prepared.dispatched.linked.detached_of_run isCurrent) balance.1 balance.2

/-- Without entries a tick gives its process one more unit of age. -/
theorem Prepared.ticked {sched : Scheduler n} (prepared : Prepared all s)
    (noEntries : ∀ p, all p = [])
    (executedEq : OsPAs.Sched.execute sched s = .ok s') : Ticked s s' := by
  cases isCurrent : s.current with
  | none =>
      obtain rfl := Except.ok.inj
        ((execute_of_idle sched isCurrent).symm.trans executedEq)
      exact ⟨by simp [isCurrent, nextTick], rfl, rfl, rfl⟩
  | some c =>
      obtain rfl := Except.ok.inj
        ((prepared.execute_of_noEntries noEntries isCurrent).symm.trans
          executedEq)
      refine ⟨fun p => ?_, rfl, rfl, rfl⟩
      have alive := (prepared.fit c isCurrent).1
      have small := prepared.whole.small c
      unfold unfinished at alive
      change ((Sim.setHolding _ c []).procs p).age = _
      rw [setHolding_procs, growOlder_procs, Sim.print_procs,
        setToAcquire_procs, setStatus_procs, isCurrent]
      by_cases same : p = c
      · subst same
        simp only [if_true]
        exact toUInt_of_lt (by omega)
      · simp [same, Ne.symm same]

end Pass

end OsPAs.Sched
