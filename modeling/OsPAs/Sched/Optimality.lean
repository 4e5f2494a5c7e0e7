/-
Module: OsPAs.Sched.Optimality
Purpose: STCF is optimal.  On scripts without acquire lines the simulation
  under STCF is a shortest-first schedule, whose sum of exit ticks no feasible
  schedule beats.
Trusted boundary: none
Main exports: stcf_shortestFirst, stcf_optimal
-/
import OsPAs.Sched.Jobs

namespace OsPAs.Sched

open Lib

variable {script : List ProcessBlock}

/-- The run of STCF on jobs is a shortest-first schedule. -/
theorem stcf_shortestFirst (jobs : JobScript script) :
    ShortestFirst (startOf script) (lifespanOf script)
      (chosenAt script stcfScheduler) where
  toFeasible :=
    ((jobs.serves .stcf).workConserving jobs.entries_eq).toFeasible
  idle := fun k isIdle p arrived => by
    have conserving := (jobs.serves .stcf).workConserving jobs.entries_eq
    exact Nat.sub_eq_zero_of_le (conserving.idle k isIdle p arrived)
  shortest := fun k c runs p arrived unfinishedNow => by
    have serves : Serves script AllShort stcfScheduler := jobs.serves .stcf
    obtain ⟨s, mid, reached, pass, isCurrent⟩ := pass_of_chosenAt serves runs
    have timed := serves.timed reached
    have short (q : Fin script.length) : (s.procs q).lifespan < maxTc := by
      rw [timed.lifespan]
      exact (jobs _ (List.get_mem script q)).2.2
    have picked := timed.settled.picked jobs.entries_eq short pass.dispatchedEq
      pass.dispatching
    have forked : p ∉ mid.forkqueue := by
      rw [timed.awaited_dispatch pass.dispatching]
      exact Nat.not_lt.mpr arrived
    have alive : unfinished s p := by
      unfold unfinished
      rw [serves.ages jobs.entries_eq reached, timed.lifespan]
      exact Nat.sub_pos_iff_lt.mp unfinishedNow
    have least := (picked.chosen c isCurrent).2.2 p forked alive
    simp only [serves.ages jobs.entries_eq reached, timed.lifespan] at least
    exact least

/-- STCF is optimal.  On jobs every process exits at exactly one tick, and no
schedule that runs one forked, unfinished process per tick and completes every
process has a smaller sum of exit ticks. -/
theorem stcf_optimal (script : List ProcessBlock) (jobs : JobScript script) :
    ∃ exitTick : Fin script.length → Nat,
      (∀ p k, ExitsAt script stcfScheduler p k ↔ k = exitTick p) ∧
      ∀ (τ : Nat → Option (Fin script.length)) (D : Fin script.length → Nat),
        Feasible (startOf script) (lifespanOf script) τ →
        (∀ p, CompletesAt (lifespanOf script) τ p (D p)) →
          ∑ p, exitTick p ≤ ∑ p, D p := by
  have serves : Serves script AllShort stcfScheduler := jobs.serves .stcf
  have first := stcf_shortestFirst jobs
  have positive (p : Fin script.length) : 0 < lifespanOf script p :=
    (jobs _ (List.get_mem script p)).2.1
  choose exitTick completes using first.completes positive
  refine ⟨exitTick, fun p k => ?_, fun τ D feasible finishes => ?_⟩
  · rw [serves.exitsAt_iff jobs.entries_eq]
    constructor
    · exact fun ends => first.completes_unique ends (completes p)
    · rintro rfl
      exact completes p
  · exact shortestFirst_optimal first feasible completes finishes

/-- A long job in front of a short one. -/
def longFirst : List ProcessBlock :=
  [{ pid := 1, start := 0, lifespan := 2 },
   { pid := 2, start := 0, lifespan := 1 }]

/-- The schedule that runs the two jobs of `longFirst` one after the other. -/
def inOrder : Nat → Option (Fin longFirst.length)
  | 0 => some ⟨0, by decide⟩
  | 1 => some ⟨0, by decide⟩
  | 2 => some ⟨1, by decide⟩
  | _ => none

/-- Run in order, the two jobs exit at ticks 2 and 3; STCF does no worse. -/
theorem stcf_optimal_longFirst :
    ∃ exitTick : Fin longFirst.length → Nat,
      (∀ p k, ExitsAt longFirst stcfScheduler p k ↔ k = exitTick p) ∧
      ∑ p, exitTick p ≤ 2 + 3 := by
  obtain ⟨exitTick, exits, optimal⟩ := stcf_optimal longFirst (by decide)
  have feasible :
      Feasible (startOf longFirst) (lifespanOf longFirst) inOrder := by
    constructor
    · intro t p _
      have early : ∀ p, startOf longFirst p = 0 := by decide
      rw [early]
      exact Nat.zero_le t
    · rintro (_ | _ | _ | t) p runs
      · obtain rfl := Option.some.inj runs
        decide
      · obtain rfl := Option.some.inj runs
        decide
      · obtain rfl := Option.some.inj runs
        decide
      · simp [inOrder] at runs
  have finishes (p : Fin longFirst.length) :
      CompletesAt (lifespanOf longFirst) inOrder p (p.val + 2) := by
    match p with
    | ⟨0, _⟩ => exact ⟨1, rfl, rfl, rfl⟩
    | ⟨1, _⟩ => exact ⟨2, rfl, rfl, rfl⟩
  exact ⟨exitTick, exits, optimal inOrder _ feasible finishes⟩

end OsPAs.Sched
