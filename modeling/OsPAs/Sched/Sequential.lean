/-
Module: OsPAs.Sched.Sequential
Purpose: FIFO and SJF run one process after the other.  Under FIFO the blocks
  follow the single-server recurrence in the order of arrival; in a batch SJF
  runs the processes by lifespan, which gives the least sum of exit ticks.
Trusted boundary: none
Main exports: TakesInOrder, TakesInOrder.inOrder, fifoScheduler_takesInOrder,
  sjfScheduler_takesInOrder, fifo_recurrence, sjf_batch_optimal
-/
import OsPAs.Lib.SingleServer
import OsPAs.Sched.Jobs
import OsPAs.Sched.NonPreemptive

namespace OsPAs.Sched

open Lib

/-- A policy without preemption that takes, out of a ready queue in the order of
arrival, a process that no other is before; nobody who arrives later is before
one who is there. -/
structure TakesInOrder (script : List ProcessBlock)
    (key : Fin script.length → Nat) (sched : Scheduler script.length) :
    Prop where
  keeps : NonPreemptive sched
  takes : ∀ s next s', (∀ p, (s.procs p).lifespan = lifespanOf script p) →
    s.readyqueue.Pairwise (Before (startOf script)) →
    (∀ c, s.current = some c → ¬ unfinished s c) →
    sched.schedule s = .ok (some next, s') →
    ∀ q ∈ s.readyqueue, ¬ Before key q next
  late : ∀ p q, startOf script p < startOf script q → ¬ Before key q p

/-- The ready queue is in the order of arrival, the fork queue in that of the
script, and nobody ready is before the current process. -/
structure Lined (script : List ProcessBlock) (key : Fin script.length → Nat)
    (s : Sim script.length) : Prop where
  ready : s.readyqueue.Pairwise (Before (startOf script))
  forking : s.forkqueue.Pairwise (· < ·)
  first : ∀ c, s.current = some c → ∀ q ∈ s.readyqueue, ¬ Before key q c

section Runs

variable {script : List ProcessBlock} {key : Fin script.length → Nat}
  {guard : Sim script.length → Prop} {sched : Scheduler script.length} {k : Nat}
  {s s' mid : Sim script.length}

/-- Where the current process is finished nobody joins the ready queue. -/
theorem Chosen.readyqueue_sublist {n : Nat} {live : Prop} {s s' : Sim n}
    {next : Option (Fin n)} (choice : Chosen live s next s')
    (finished : ∀ c, s.current = some c → ¬ unfinished s c) :
    s'.readyqueue.Sublist s.readyqueue := by
  cases choice with
  | keep => exact List.Sublist.refl _
  | idle => exact List.Sublist.refl _
  | pick => exact List.erase_sublist
  | preempt _ _ isCurrent _ alive => exact absurd alive (finished _ isCurrent)

theorem load_lined : Lined script key (load script) where
  ready := List.Pairwise.nil
  forking := List.pairwise_lt_finRange script.length
  first := fun c isCurrent => by simp [load] at isCurrent

/-- Forking keeps the order of arrival, and puts nobody before the current
process. -/
theorem Lined.forked (lined : Lined script key s) (timed : Timed script k s)
    (takes : TakesInOrder script key sched)
    (noEntries : ∀ p, entries script p = []) :
    (forkOnSchedule s).readyqueue.Pairwise (Before (startOf script)) ∧
      ∀ c, s.current = some c → ∀ q ∈ (forkOnSchedule s).readyqueue,
        ¬ Before key q c := by
  rw [timed.readyqueue_forked]
  constructor
  · refine List.pairwise_append.mpr ⟨lined.ready, ?_, ?_⟩
    · refine (lined.forking.filter _).imp_of_mem ?_
      intro p q isNew isNew' inOrder
      have now := (List.mem_filter.mp isNew).2
      have now' := (List.mem_filter.mp isNew').2
      rw [decide_eq_true_eq] at now now'
      exact Or.inr ⟨now.trans now'.symm, inOrder⟩
    · intro p isReady q isNew
      have now := (List.mem_filter.mp isNew).2
      rw [decide_eq_true_eq] at now
      exact Or.inl (now ▸ timed.started_of_ready isReady)
  · intro c isCurrent q isReady
    rcases List.mem_append.mp isReady with old | isNew
    · exact lined.first c isCurrent q old
    · have now := (List.mem_filter.mp isNew).2
      rw [decide_eq_true_eq] at now
      exact takes.late c q (now ▸ timed.started_of_current noEntries isCurrent)

/-- The first half of a pass. -/
theorem Lined.dispatched (lined : Lined script key s)
    (takes : TakesInOrder script key sched)
    (serves : Serves script guard sched)
    (noEntries : ∀ p, entries script p = [])
    (reached : doSimulation script sched k = .ok (.again s))
    (pass : PassOf script sched k s mid) : Lined script key mid := by
  have timed := serves.timed reached
  have forks := timed.settled.sound.forked
  have awake := timed.settled.awake_forked noEntries
  obtain ⟨ready, first⟩ := lined.forked timed takes noEntries
  obtain ⟨chosen, scheduled, choice, readyEq⟩ := pass.chosen serves reached
  have forking : mid.forkqueue.Pairwise (· < ·) := by
    rw [pass.dispatching.forkqueue]
    exact lined.forking.filter _
  have lifespans (p : Fin script.length) :
      ((forkOnSchedule s).procs p).lifespan = lifespanOf script p := by
    rw [forks.procs]
    exact timed.lifespan p
  by_cases alive : ∃ c, (forkOnSchedule s).current = some c ∧
      unfinished (forkOnSchedule s) c
  · obtain ⟨c, isCurrent, alive⟩ := alive
    have kept := takes.keeps _ c isCurrent (awake c) alive
    obtain ⟨stays, rfl⟩ :=
      Prod.mk.inj (Except.ok.inj (kept.symm.trans scheduled))
    rw [← readyEq] at ready first
    refine ⟨ready, forking, fun d isD => ?_⟩
    obtain rfl := Option.some.inj (stays.trans isD)
    exact first c (forks.current ▸ isCurrent)
  · have finished : ∀ c, (forkOnSchedule s).current = some c →
        ¬ unfinished (forkOnSchedule s) c :=
      fun c isCurrent stillAlive => alive ⟨c, isCurrent, stillAlive⟩
    have subset := choice.readyqueue_sublist finished
    rw [← readyEq] at subset
    refine ⟨ready.sublist subset, forking, fun next isNext q isReady => ?_⟩
    rw [isNext] at scheduled
    exact takes.takes _ next _ lifespans ready finished scheduled q
      (subset.subset isReady)

/-- Between two ticks of a run. -/
theorem TakesInOrder.lined (takes : TakesInOrder script key sched)
    (serves : Serves script guard sched)
    (noEntries : ∀ p, entries script p = [])
    (reached : doSimulation script sched k = .ok (.again s)) :
    Lined script key s := by
  refine serves.invariant (fun _ => Lined script key) load_lined ?_ reached
  intro k s mid s' reached lined pass _ executedEq _
  have lined := lined.dispatched takes serves noEntries reached pass
  have ticked := pass.prepared.ticked noEntries executedEq
  have ready := pass.readyqueue_executed serves noEntries reached executedEq
  exact ⟨ready ▸ lined.ready, ticked.forkqueue ▸ lined.forking, by
    rw [ready, ticked.current]
    exact lined.first⟩

/-- A process is chosen only when those before it are finished. -/
theorem TakesInOrder.finished (takes : TakesInOrder script key sched)
    (serves : Serves script guard sched)
    (noEntries : ∀ p, entries script p = []) {p q : Fin script.length}
    (before : Before key q p) (chosen : chosenAt script sched k = some p) :
    ran (chosenAt script sched) q k = lifespanOf script q := by
  obtain ⟨s, mid, reached, pass, isCurrent⟩ := pass_of_chosenAt serves chosen
  have timed := serves.timed reached
  have lined := (takes.lined serves noEntries reached).dispatched takes serves
    noEntries reached pass
  apply pass.finished_of_absent serves noEntries reached
  · rw [timed.awaited_dispatch pass.dispatching]
    intro ahead
    have arrived := (serves.workConserving noEntries).arrived k p chosen
    exact takes.late p q (Nat.lt_of_le_of_lt arrived ahead) before
  · exact fun isReady => lined.first p isCurrent q isReady before
  · rw [isCurrent]
    intro same
    obtain rfl := Option.some.inj same
    exact before.asymm before

/-- The run takes the processes in their order. -/
theorem TakesInOrder.inOrder (takes : TakesInOrder script key sched)
    (serves : Serves script guard sched)
    (noEntries : ∀ p, entries script p = []) :
    InOrder (lifespanOf script) (orderBy key) (chosenAt script sched) :=
  (orderBy_pairwise key).imp fun before _ chosen =>
    takes.finished serves noEntries before chosen

end Runs

/-! ### The two policies -/

section Policies

variable {script : List ProcessBlock}

/-- With a finished current process the choice is that of `pick_next`. -/
theorem keepUnfinished_of_finished {n : Nat} {s : Sim n}
    (finished : ∀ c, s.current = some c → ¬ unfinished s c)
    (pickNext : Sim n → Except Fault (Option (Fin n) × Sim n)) :
    keepUnfinished pickNext s = pickNext s := by
  unfold keepUnfinished
  split
  · rfl
  · rename_i c isCurrent
    rw [if_neg (finished c isCurrent), ite_self]

/-- FIFO takes the processes in the order of arrival. -/
theorem fifoScheduler_takesInOrder :
    TakesInOrder script (startOf script) fifoScheduler where
  keeps := fifoScheduler_nonPreemptive
  takes := by
    intro s next s' _ inOrder finished scheduled
    change fifoSchedule s = .ok (some next, s') at scheduled
    rw [fifoSchedule, keepUnfinished_of_finished finished] at scheduled
    split at scheduled
    · simp at scheduled
    · rename_i first rest ready
      obtain ⟨rfl, _⟩ : first = next ∧ _ := by simpa using scheduled
      rw [ready] at inOrder ⊢
      intro q isReady before
      rcases List.mem_cons.mp isReady with rfl | inRest
      · exact before.asymm before
      · exact before.asymm ((List.pairwise_cons.mp inOrder).1 q inRest)
  late := fun p q later before => by
    unfold Before at before
    omega

/-- SJF takes the processes of a batch by lifespan. -/
theorem sjfScheduler_takesInOrder
    (batch : ∀ p q, startOf script p = startOf script q) :
    TakesInOrder script (lifespanOf script) sjfScheduler where
  keeps := sjfScheduler_nonPreemptive
  takes := by
    intro s next s' lifespans inOrder finished scheduled
    change sjfSchedule s = .ok (some next, s') at scheduled
    rw [sjfSchedule, keepUnfinished_of_finished finished] at scheduled
    split at scheduled
    · simp at scheduled
    · rename_i first rest ready
      obtain ⟨isNext, _⟩ :
          scan (shorterJob s) first (first :: rest) = next ∧ _ := by
        simpa using scheduled
      obtain ⟨front, back, split, worse, notBetter⟩ := scan_split (shorterJob s)
        (fun a b => by unfold shorterJob; omega)
        (fun a b c => by unfold shorterJob; omega) first rest
      rw [isNext] at split worse notBetter
      rw [ready, split] at inOrder ⊢
      intro q isReady before
      unfold Before at before
      unfold shorterJob at worse notBetter
      simp only [lifespans] at worse notBetter
      rcases List.mem_append.mp isReady with inFront | isBehind
      · have shorter := worse q inFront
        omega
      · rcases List.mem_cons.mp isBehind with rfl | inBack
        · omega
        · have arrived := List.rel_of_pairwise_cons
            (List.pairwise_append.mp inOrder).2.1 inBack
          have together := batch q next
          have notShorter := notBetter q inBack
          unfold Before at arrived
          omega
  late := fun p q later _ => Nat.ne_of_lt later (batch p q)

end Policies

/-! ### When the processes run -/

section Blocks

variable {script : List ProcessBlock} {key : Fin script.length → Nat}
  {guard : Sim script.length → Prop} {sched : Scheduler script.length}

/-- The loop is left when the last process is done. -/
theorem TakesInOrder.leavesAt (takes : TakesInOrder script key sched)
    (serves : Serves script guard sched) (plain : PlainJobs script) :
    ∃ s s', doSimulation script sched (endOf (startOf script)
        (lifespanOf script) (orderBy key) (orderBy key).length) =
          .ok (.again s) ∧
      doSimulation script sched (endOf (startOf script)
        (lifespanOf script) (orderBy key) (orderBy key).length + 1) =
          .ok (.leave s') ∧
      s'.ticks = toUInt (endOf (startOf script) (lifespanOf script)
        (orderBy key) (orderBy key).length) := by
  have noEntries := plain.entries_eq
  have follows := takes.inOrder serves noEntries
  have conserving := serves.workConserving noEntries
  apply serves.leavesAt noEntries
  · exact fun j early => follows.unfinished_before_end conserving
      (mem_orderBy key) plain.positive early
  · exact fun p => arrival_le_endOf (mem_orderBy key p)
  · exact follows.finished_at_end conserving (mem_orderBy key) plain.positive

/-- A process exits at the end of its block. -/
theorem TakesInOrder.exitsAt (takes : TakesInOrder script key sched)
    (serves : Serves script guard sched) (plain : PlainJobs script) {i : Nat}
    {p : Fin script.length} (isNext : (orderBy key)[i]? = some p) (k : Nat) :
    ExitsAt script sched p k ↔
      k = endOf (startOf script) (lifespanOf script) (orderBy key) (i + 1) := by
  have noEntries := plain.entries_eq
  have conserving := serves.workConserving noEntries
  have completes := (takes.inOrder serves noEntries).completes conserving
    (mem_orderBy key) plain.positive isNext
  rw [serves.exitsAt_iff noEntries]
  constructor
  · exact fun ends => conserving.completes_unique ends completes
  · rintro rfl
    exact completes

end Blocks

/-- FIFO follows the single-server recurrence.  In the order of arrival, process
`i` runs in one block of ticks, which begins at its start tick or at the end of
the block before, whichever is later; it exits at the end of its block, and the
simulation ends at the end of the last. -/
theorem fifo_recurrence (script : List ProcessBlock) (plain : PlainJobs script) :
    let order := orderBy (startOf script)
    let ends := endOf (startOf script) (lifespanOf script) order
    (∀ i p, order[i]? = some p →
      let begins := max (startOf script p) (ends i)
      ends (i + 1) = begins + lifespanOf script p ∧
      (∀ k, chosenAt script fifoScheduler k = some p ↔
        begins ≤ k ∧ k < ends (i + 1)) ∧
      ∀ k, ExitsAt script fifoScheduler p k ↔ k = ends (i + 1)) ∧
    ∃ s s', doSimulation script fifoScheduler (ends order.length) =
        .ok (.again s) ∧
      doSimulation script fifoScheduler (ends order.length + 1) =
        .ok (.leave s') ∧
      s'.ticks = toUInt (ends order.length) := by
  have takes : TakesInOrder script (startOf script) fifoScheduler :=
    fifoScheduler_takesInOrder
  have serves := Policy.serves (show Policy.fifo ∈ statusAware by decide)
    plain.wellFormed
  have follows := takes.inOrder serves plain.entries_eq
  have conserving := serves.workConserving plain.entries_eq
  refine ⟨fun i p isNext => ⟨endOf_succ _ _ isNext, ?_, ?_⟩,
    takes.leavesAt serves plain⟩
  · exact follows.runsInBlock conserving (mem_orderBy _) plain.positive isNext
  · exact takes.exitsAt serves plain isNext

/-- The second process comes first, and the other two together. -/
def lateAndEarly : List ProcessBlock :=
  [{ pid := 1, start := 2, lifespan := 2 },
   { pid := 2, start := 0, lifespan := 1 },
   { pid := 3, start := 2, lifespan := 1 }]

/-- After an idle tick the first process runs in ticks 2 and 3, and the third in
tick 4, with which the simulation ends. -/
theorem fifo_recurrence_lateAndEarly :
    (∀ k, chosenAt lateAndEarly fifoScheduler k = some ⟨0, by decide⟩ ↔
      2 ≤ k ∧ k < 4) ∧
    (∀ k, ExitsAt lateAndEarly fifoScheduler ⟨2, by decide⟩ k ↔ k = 5) ∧
    ∃ s', doSimulation lateAndEarly fifoScheduler 6 = .ok (.leave s') ∧
      s'.ticks = 5 := by
  obtain ⟨blocks, _, s', _, leaves, ticks⟩ :=
    fifo_recurrence lateAndEarly (by decide)
  exact ⟨(blocks 1 ⟨0, by decide⟩ (by decide)).2.1,
    (blocks 2 ⟨2, by decide⟩ (by decide)).2.2, s', leaves, ticks⟩

/-- SJF is optimal for a batch.  The exit ticks of processes that start together
add up to at most the sum of the completion ticks when they are run back to back
in any other order, and of two processes with the same lifespan the one that is
first in the script exits first. -/
theorem sjf_batch_optimal (script : List ProcessBlock) (plain : PlainJobs script)
    (first : Nat) (batch : ∀ p, startOf script p = first) :
    ∃ exitTick : Fin script.length → Nat,
      (∀ p k, ExitsAt script sjfScheduler p k ↔ k = exitTick p) ∧
      (∀ order : List (Fin script.length),
        order.Perm (List.finRange script.length) →
          ∑ p, exitTick p ≤ totalFrom first (order.map (lifespanOf script))) ∧
      ∀ p q, lifespanOf script p = lifespanOf script q → p < q →
        exitTick p < exitTick q := by
  have takes : TakesInOrder script (lifespanOf script) sjfScheduler :=
    sjfScheduler_takesInOrder fun p q => (batch p).trans (batch q).symm
  have serves := Policy.serves (show Policy.sjf ∈ statusAware by decide)
    plain.wellFormed
  refine ⟨completion (startOf script) (lifespanOf script)
    (orderBy (lifespanOf script)), fun p k => ?_, fun order perm => ?_,
    fun p q equal inOrder => ?_⟩
  · exact takes.exitsAt serves plain (List.getElem?_idxOf (mem_orderBy _ p)) k
  · have same := orderBy_perm (lifespanOf script)
    have nodup := same.nodup_iff.mpr (List.nodup_finRange script.length)
    have ascending : ((orderBy (lifespanOf script)).map
        (lifespanOf script)).Pairwise (· ≤ ·) := by
      refine List.pairwise_map.mpr ((orderBy_pairwise _).imp ?_)
      intro p q before
      unfold Before at before
      omega
    calc ∑ p, completion (startOf script) (lifespanOf script)
          (orderBy (lifespanOf script)) p
        = ((List.finRange script.length).map (completion (startOf script)
            (lifespanOf script) (orderBy (lifespanOf script)))).sum :=
          Fin.sum_univ_def _
      _ = ((orderBy (lifespanOf script)).map (completion (startOf script)
            (lifespanOf script) (orderBy (lifespanOf script)))).sum :=
          (same.map _).sum_eq.symm
      _ = totalFrom first
            ((orderBy (lifespanOf script)).map (lifespanOf script)) :=
          sum_completion nodup fun p _ => batch p
      _ ≤ totalFrom first (order.map (lifespanOf script)) :=
          totalFrom_le_of_perm ascending ((same.trans perm.symm).map _) first
  · exact completion_lt plain.positive (Or.inr ⟨equal, inOrder⟩)

/-- A batch with two short processes behind a long one. -/
def longThenShort : List ProcessBlock :=
  [{ pid := 1, start := 1, lifespan := 3 },
   { pid := 2, start := 1, lifespan := 1 },
   { pid := 3, start := 1, lifespan := 1 }]

/-- Run as they stand in the script they would exit at ticks 4, 5 and 6. -/
theorem sjf_batch_optimal_longThenShort :
    ∃ exitTick : Fin longThenShort.length → Nat,
      (∀ p k, ExitsAt longThenShort sjfScheduler p k ↔ k = exitTick p) ∧
      ∑ p, exitTick p ≤ 4 + (5 + 6) ∧
      exitTick ⟨1, by decide⟩ < exitTick ⟨2, by decide⟩ := by
  obtain ⟨exitTick, exits, optimal, stable⟩ :=
    sjf_batch_optimal longThenShort (by decide) 1 (by decide)
  exact ⟨exitTick, exits, optimal _ (List.Perm.refl _),
    stable _ _ rfl (by decide)⟩

end OsPAs.Sched
