/-
Module: OsPAs.Sched.RoundRobin
Purpose: Round robin is fair.  Between two turns of a process everybody who was
  ready at the first, or is forked in the tick after it, has exactly one turn,
  and nobody else has any.
Trusted boundary: none
Main exports: rrSchedule_line, lineAt, ForkedAt, rr_fair
-/
import OsPAs.Sched.Jobs

namespace OsPAs.Sched

open Lib

/-! ### The choice of round robin -/

/-- The current process, if it is unfinished. -/
def alive {n : Nat} (s : Sim n) : List (Fin n) :=
  (s.current.filter fun c => unfinished s c).toList

theorem alive_of_current {n : Nat} {s : Sim n} {c : Fin n}
    (isCurrent : s.current = some c) :
    alive s = if unfinished s c then [c] else [] := by
  unfold alive
  by_cases goesOn : unfinished s c
  · simp [isCurrent, goesOn]
  · simp [isCurrent, goesOn]

theorem alive_congr {n : Nat} {s s' : Sim n} (current : s'.current = s.current)
    (procs : s'.procs = s.procs) : alive s' = alive s := by
  cases isCurrent : s.current with
  | none => simp [alive, current, isCurrent]
  | some c =>
      have same : unfinished s' c ↔ unfinished s c := by
        unfold unfinished
        rw [procs]
      rw [alive_of_current isCurrent, alive_of_current (current.trans isCurrent)]
      simp only [same]

/-- The current process joins the ready queue, if it is unfinished. -/
theorem requeueUnfinished_readyqueue {n : Nat} {s s' : Sim n}
    (requeued : requeueUnfinished s = .ok s') :
    s'.readyqueue = s.readyqueue ++ alive s := by
  unfold requeueUnfinished at requeued
  split at requeued
  · rename_i nobody
    obtain rfl := Except.ok.inj requeued
    simp [alive, nobody]
  · rename_i c isCurrent
    rw [alive_of_current isCurrent]
    split at requeued
    · rename_i goesOn
      rw [if_pos goesOn]
      unfold Sim.addTailReady at requeued
      split at requeued
      · obtain rfl := Except.ok.inj requeued
        rfl
      · simp at requeued
    · rename_i finished
      rw [if_neg finished, List.append_nil]
      obtain rfl := Except.ok.inj requeued
      rfl

/-- Where the current process is finished, or somebody else is ready, the choice
is that of `pick_next`. -/
theorem keepAlone_of_not_alone {n : Nat} {s : Sim n} (awake : Awake s)
    (notAlone : ∀ c, s.current = some c →
      ¬ (s.readyqueue = [] ∧ unfinished s c))
    (pickNext : Sim n → Except Fault (Option (Fin n) × Sim n)) :
    keepAlone pickNext s = pickNext s := by
  unfold keepAlone
  split
  · rfl
  · rename_i c isCurrent
    rw [if_neg (awake c), if_neg (notAlone c isCurrent)]

/-- The process chosen and those left in the ready queue: the ready queue, and
behind it the current process if it is unfinished. -/
theorem rrSchedule_line {n : Nat} {s s' : Sim n} {next : Option (Fin n)}
    (awake : Awake s) (scheduled : rrSchedule s = .ok (next, s')) :
    next.toList ++ s'.readyqueue = s.readyqueue ++ alive s := by
  by_cases alone : ∃ c, s.current = some c ∧ s.readyqueue = [] ∧ unfinished s c
  · obtain ⟨c, isCurrent, nobody, goesOn⟩ := alone
    have stays : rrSchedule s = .ok (some c, s) := by
      simp [rrSchedule, keepAlone, isCurrent, awake c, nobody, goesOn]
    obtain ⟨rfl, rfl⟩ :=
      Prod.mk.inj (Except.ok.inj (stays.symm.trans scheduled))
    rw [alive_of_current isCurrent, if_pos goesOn, nobody]
    rfl
  · have notAlone : ∀ c, s.current = some c →
        ¬ (s.readyqueue = [] ∧ unfinished s c) :=
      fun c isCurrent both => alone ⟨c, isCurrent, both⟩
    rw [rrSchedule, keepAlone_of_not_alone awake notAlone] at scheduled
    split at scheduled
    · rename_i nobody
      obtain ⟨rfl, rfl⟩ := Prod.mk.inj (Except.ok.inj scheduled)
      cases isCurrent : s.current with
      | none => simp [alive, isCurrent]
      | some c =>
          rw [alive_of_current isCurrent,
            if_neg fun goesOn => notAlone c isCurrent ⟨nobody, goesOn⟩]
          simp
    · rename_i first rest ready
      cases requeued : requeueUnfinished (s.delInitReady first) with
      | error fault => simp [requeued, bind, Except.bind] at scheduled
      | ok t =>
          rw [requeued] at scheduled
          obtain ⟨rfl, rfl⟩ := Prod.mk.inj (Except.ok.inj scheduled)
          have left : (s.delInitReady first).readyqueue = rest := by
            simp [Sim.delInitReady, ready]
          rw [requeueUnfinished_readyqueue requeued, left, ready]
          rfl

/-! ### Turns -/

/-- The process that pass `k` chooses, and behind it those that the choice leaves
in the ready queue. -/
def lineAt (script : List ProcessBlock) (sched : Scheduler script.length)
    (k : Nat) : List (Fin script.length) :=
  match doSimulation script sched k with
  | .ok (.again s) =>
      match dispatch sched s with
      | .ok mid => mid.current.toList ++ mid.readyqueue
      | .error _ => []
  | _ => []

/-- Process `p` is forked at tick `k`. -/
def ForkedAt (script : List ProcessBlock) (sched : Scheduler script.length)
    (p : Fin script.length) (k : Nat) : Prop :=
  ∃ s, doSimulation script sched k = .ok (.again s) ∧ p ∈ s.forkqueue ∧
    p ∈ (forkOnSchedule s).readyqueue

section Runs

variable {script : List ProcessBlock} {guard : Sim script.length → Prop}
  {sched : Scheduler script.length} {k t u : Nat}
  {s s' mid : Sim script.length} {p : Fin script.length}

theorem PlainJobs.serves_rr (plain : PlainJobs script) :
    Serves script Awake rrScheduler where
  contract := rrScheduler_awake
  wellFormed := plain.wellFormed
  guarded := fun _ settled _ _ => settled.awake_forked plain.entries_eq

/-- A process is forked at its start tick, if the run gets there. -/
theorem Serves.forkedAt_iff (serves : Serves script guard sched)
    (reached : doSimulation script sched k = .ok (.again s)) :
    ForkedAt script sched p k ↔ startOf script p = k := by
  have timed := serves.timed reached
  constructor
  · rintro ⟨s', reached', waiting, isReady⟩
    obtain rfl : s' = s := by simpa [reached] using reached'.symm
    rw [timed.readyqueue_forked] at isReady
    rcases List.mem_append.mp isReady with old | new
    · have started := timed.started_of_ready old
      have ahead := (timed.awaited p).mp waiting
      omega
    · simpa using (List.mem_filter.mp new).2
  · rintro now
    have waiting := (timed.awaited p).mpr (Nat.le_of_eq now.symm)
    refine ⟨s, reached, waiting, ?_⟩
    rw [timed.readyqueue_forked]
    exact List.mem_append_right _
      (List.mem_filter.mpr ⟨waiting, decide_eq_true now⟩)

theorem PassOf.lineAt_eq (pass : PassOf script sched k s mid)
    (reached : doSimulation script sched k = .ok (.again s)) :
    lineAt script sched k = mid.current.toList ++ mid.readyqueue := by
  simp only [lineAt, reached, pass.dispatchedEq]

theorem PassOf.head?_lineAt (pass : PassOf script sched k s mid)
    (reached : doSimulation script sched k = .ok (.again s)) :
    (lineAt script sched k).head? = chosenAt script sched k := by
  rw [pass.lineAt_eq reached, chosenAt_of_dispatched reached pass.dispatchedEq]
  cases isCurrent : mid.current with
  | none => rw [pass.idle isCurrent]; rfl
  | some c => rfl

/-- The line of a pass under round robin. -/
theorem PassOf.rr_lineAt (pass : PassOf script rrScheduler k s mid)
    (plain : PlainJobs script)
    (reached : doSimulation script rrScheduler k = .ok (.again s)) :
    lineAt script rrScheduler k = s.readyqueue ++
      (s.forkqueue.filter fun p => startOf script p = k) ++ alive s := by
  have serves := plain.serves_rr
  have timed := serves.timed reached
  obtain ⟨chosen, scheduled, _, readyEq⟩ := pass.chosen serves reached
  have line := rrSchedule_line (serves.guard_of_reached reached) scheduled
  have forks := timed.settled.sound.forked
  have same := alive_congr forks.current forks.procs
  rw [pass.lineAt_eq reached, readyEq, line, same, timed.readyqueue_forked]

theorem PassOf.tail_lineAt (pass : PassOf script sched k s mid)
    (reached : doSimulation script sched k = .ok (.again s)) :
    (lineAt script sched k).tail = mid.readyqueue := by
  rw [pass.lineAt_eq reached]
  cases isCurrent : mid.current with
  | none => rw [pass.idle isCurrent]; rfl
  | some c => rfl

/-- Nobody is twice in the line. -/
theorem PassOf.nodup_lineAt (pass : PassOf script sched k s mid)
    (reached : doSimulation script sched k = .ok (.again s)) :
    (lineAt script sched k).Nodup := by
  have linked := pass.prepared.dispatched.linked
  rw [pass.lineAt_eq reached]
  cases isCurrent : mid.current with
  | none => exact linked.nodup_readyqueue
  | some c =>
      exact List.nodup_cons.mpr
        ⟨(linked.detached_of_run isCurrent).2.1, linked.nodup_readyqueue⟩

/-- From one pass to the next the line moves up: the first gives up its place,
and behind the others come those forked and, if it is unfinished, the first
itself. -/
theorem rr_lineAt_succ (plain : PlainJobs script)
    (next : doSimulation script rrScheduler (k + 1) = .ok (.again s')) :
    lineAt script rrScheduler (k + 1) = (lineAt script rrScheduler k).tail ++
      (s'.forkqueue.filter fun p => startOf script p = k + 1) ++ alive s' := by
  obtain ⟨s, mid, reached, pass, executedEq⟩ := plain.serves_rr.before next
  obtain ⟨mid', pass'⟩ := plain.serves_rr.pass next
  rw [pass'.rr_lineAt plain next, pass.tail_lineAt reached,
    pass.readyqueue_executed plain.serves_rr plain.entries_eq reached executedEq]

/-- A process that has another turn to come stays current and unfinished. -/
theorem rr_alive (plain : PlainJobs script) (before : t < u)
    (first : chosenAt script rrScheduler t = some p)
    (second : chosenAt script rrScheduler u = some p)
    (next : doSimulation script rrScheduler (t + 1) = .ok (.again s')) :
    alive s' = [p] := by
  have serves := plain.serves_rr
  obtain ⟨s, mid, reached, pass, executedEq⟩ := serves.before next
  have ticked := pass.prepared.ticked plain.entries_eq executedEq
  have isCurrent : s'.current = some p := by
    rw [ticked.current, ← chosenAt_of_dispatched reached pass.dispatchedEq, first]
  have goesOn : unfinished s' p := by
    have later := (serves.workConserving plain.entries_eq).unfinished u p second
    have mono := ran_mono (chosenAt script rrScheduler) p (Nat.succ_le_of_lt before)
    unfold unfinished
    rw [serves.ages plain.entries_eq next, (serves.timed next).lifespan]
    exact Nat.lt_of_le_of_lt mono later
  rw [alive_of_current isCurrent, if_pos goesOn]

end Runs

/-- Round robin is fair.  Between two consecutive ticks at which a process runs,
everybody whom the choice at the first left in the ready queue and everybody
forked at the tick after it runs in exactly one tick, and nobody else runs. -/
theorem rr_fair (script : List ProcessBlock) (plain : PlainJobs script)
    (p : Fin script.length) (t u : Nat) (before : t < u)
    (first : chosenAt script rrScheduler t = some p)
    (second : chosenAt script rrScheduler u = some p)
    (consecutive : ∀ k, t < k → k < u → chosenAt script rrScheduler k ≠ some p)
    (s mid : Sim script.length)
    (reached : doSimulation script rrScheduler t = .ok (.again s))
    (dispatchedEq : dispatch rrScheduler s = .ok mid) :
    (∀ q, q ∈ mid.readyqueue ∨ ForkedAt script rrScheduler q (t + 1) →
      ∃! k, (t < k ∧ k < u) ∧ chosenAt script rrScheduler k = some q) ∧
    ∀ k q, t < k → k < u → chosenAt script rrScheduler k = some q →
      q ∈ mid.readyqueue ∨ ForkedAt script rrScheduler q (t + 1) := by
  have serves := plain.serves_rr
  obtain ⟨last, _, lastReached, _, _⟩ := pass_of_chosenAt serves second
  have reaches (k : Nat) (within : k ≤ u) :
      ∃ s, doSimulation script rrScheduler k = .ok (.again s) :=
    iterate_again_of_le lastReached within
  have heads (k : Nat) (within : k ≤ u) : (lineAt script rrScheduler k).head? =
      chosenAt script rrScheduler k := by
    obtain ⟨s, reached⟩ := reaches k within
    obtain ⟨mid, pass⟩ := serves.pass reached
    exact pass.head?_lineAt reached
  obtain ⟨s', next⟩ := reaches (t + 1) before
  obtain ⟨mid', pass'⟩ := serves.pass next
  obtain ⟨other, pass⟩ := serves.pass reached
  obtain rfl := Except.ok.inj (dispatchedEq.symm.trans pass.dispatchedEq)
  have starts := rr_lineAt_succ plain next
  have nodup := pass'.nodup_lineAt next
  rw [rr_alive plain before first second next, pass.tail_lineAt reached] at starts
  rw [starts] at nodup
  generalize waitingEq : mid.readyqueue ++
    (s'.forkqueue.filter fun q => startOf script q = t + 1) = waiting
    at starts nodup
  obtain ⟨once, _, apart⟩ := List.nodup_append.mp nodup
  obtain ⟨length, turns⟩ := next_turn starts
    (fun member => apart p member p List.mem_cons_self rfl)
    (fun k _ early => by
      obtain ⟨s, reached⟩ := reaches (k + 1) early
      exact ⟨_, (rr_lineAt_succ plain reached).trans (List.append_assoc _ _ _)⟩)
    before ((heads u (Nat.le_refl u)).trans second)
    (fun k after early => by
      rw [heads k (Nat.le_of_lt early)]
      exact consecutive k after early)
  have among (q : Fin script.length) : q ∈ waiting ↔
      q ∈ mid.readyqueue ∨ ForkedAt script rrScheduler q (t + 1) := by
    rw [serves.forkedAt_iff next, ← waitingEq, List.mem_append, List.mem_filter,
      decide_eq_true_eq, (serves.timed next).awaited]
    constructor
    · exact Or.imp_right And.right
    · exact Or.imp_right fun now => ⟨Nat.le_of_eq now.symm, now⟩
  have chosen (k : Nat) (after : t < k) (early : k < u) :
      chosenAt script rrScheduler k = waiting[k - (t + 1)]? := by
    have turn := turns (k - (t + 1)) (by omega)
    rwa [Nat.add_sub_cancel' after, heads k (Nat.le_of_lt early)] at turn
  constructor
  · intro q member
    obtain ⟨j, atJ⟩ := List.mem_iff_getElem?.mp ((among q).mpr member)
    obtain ⟨inside, _⟩ := List.getElem?_eq_some_iff.mp atJ
    refine ⟨t + 1 + j, ⟨⟨by omega, by omega⟩, ?_⟩, ?_⟩
    · rw [chosen (t + 1 + j) (by omega) (by omega), Nat.add_sub_cancel_left, atJ]
    · rintro k ⟨⟨after, early⟩, runs⟩
      rw [chosen k after early, ← atJ] at runs
      have same := (List.getElem?_inj (by omega) once).mp runs
      omega
  · intro k q after early runs
    rw [chosen k after early] at runs
    exact (among q).mp (List.mem_of_getElem? runs)

/-- Two processes from the start, and one that comes between the first two turns
of the first. -/
def newcomerBetween : List ProcessBlock :=
  [{ pid := 1, start := 0, lifespan := 2 },
   { pid := 2, start := 0, lifespan := 2 },
   { pid := 3, start := 1, lifespan := 1 }]

/-- The first process runs in ticks 0 and 3, the newcomer exactly once between
them. -/
theorem rr_fair_newcomerBetween :
    ∃! k, (0 < k ∧ k < 3) ∧
      chosenAt newcomerBetween rrScheduler k = some ⟨2, by decide⟩ := by
  have consecutive : ∀ k, 0 < k → k < 3 →
      chosenAt newcomerBetween rrScheduler k ≠ some ⟨0, by decide⟩ := by
    intro k after before
    obtain rfl | rfl : k = 1 ∨ k = 2 := by omega
    · decide
    · decide
  obtain ⟨mid, dispatchedEq⟩ :
      ∃ mid, dispatch rrScheduler (load newcomerBetween) = .ok mid :=
    exists_of_isOk (by decide)
  obtain ⟨s, reached, waiting, isReady⟩ :=
    exists_of_againWith
      (fun s => (⟨2, by decide⟩ : Fin newcomerBetween.length) ∈ s.forkqueue ∧
        (⟨2, by decide⟩ : Fin newcomerBetween.length) ∈
          (forkOnSchedule s).readyqueue)
      (doSimulation newcomerBetween rrScheduler 1) (by decide)
  exact (rr_fair newcomerBetween (by decide) ⟨0, by decide⟩ 0 3 (by decide)
    (by decide) (by decide) consecutive _ mid rfl dispatchedEq).1 ⟨2, by decide⟩
      (Or.inr ⟨s, reached, waiting, isReady⟩)

end OsPAs.Sched
