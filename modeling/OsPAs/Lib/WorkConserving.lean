/-
Module: OsPAs.Lib.WorkConserving
Purpose: Schedules that never idle while a job that has arrived is unfinished.
  Which steps are idle depends on the jobs only, not on the schedule, and how
  long a job takes depends on what the others get in the meantime.
Trusted boundary: none
Main exports: WorkConserving, WorkConserving.idle_iff, idle_agrees,
  WorkConserving.completes, WorkConserving.response_le
-/
import OsPAs.Lib.ShortestFirst

namespace OsPAs.Lib

variable {ι : Type} [DecidableEq ι]

/-- A schedule that idles only when every job that has arrived is finished. -/
structure WorkConserving (arrival work : ι → Nat) (σ : Nat → Option ι) : Prop
    extends Feasible arrival work σ where
  idle : ∀ t, σ t = none → ∀ i, arrival i ≤ t → work i ≤ ran σ i t

section Schedules

variable {arrival work : ι → Nat} {σ τ : Nat → Option ι} {t : Nat}

/-- No job has run for longer than the work it has brought so far. -/
theorem Feasible.ran_le_arrived (feasible : Feasible arrival work σ) (i : ι)
    (t : Nat) : ran σ i t ≤ if arrival i ≤ t then work i else 0 := by
  split
  · exact feasible.ran_le i t
  · rename_i late
    rw [feasible.ran_of_not_arrived (Nat.le_of_not_le late)]

variable [Fintype ι]

/-- Number of steps before step `t` that a schedule does not idle in. -/
def workDone (σ : Nat → Option ι) (t : Nat) : Nat := ∑ i, ran σ i t

/-- Work of the jobs that have arrived by step `t`. -/
def arrivedWork (arrival work : ι → Nat) (t : Nat) : Nat :=
  ∑ i, if arrival i ≤ t then work i else 0

theorem workDone_succ (σ : Nat → Option ι) (t : Nat) :
    workDone σ (t + 1) = workDone σ t + if σ t = none then 0 else 1 := by
  unfold workDone
  simp only [ran_succ, Finset.sum_add_distrib]
  cases σ t with
  | none => simp
  | some c => simp

/-- A work-conserving schedule idles exactly when it has caught up with the
work that has arrived. -/
theorem WorkConserving.idle_iff (conserving : WorkConserving arrival work σ) :
    σ t = none ↔ workDone σ t = arrivedWork arrival work t := by
  constructor
  · intro isIdle
    apply Finset.sum_congr rfl
    intro i _
    apply Nat.le_antisymm (conserving.ran_le_arrived i t)
    split
    · rename_i arrived
      exact conserving.idle t isIdle i arrived
    · exact Nat.zero_le _
  · intro caughtUp
    by_contra busy
    obtain ⟨c, runs⟩ := Option.ne_none_iff_exists'.mp busy
    have behind : workDone σ t < arrivedWork arrival work t := by
      apply Finset.sum_lt_sum
      · intro i _
        exact conserving.ran_le_arrived i t
      · refine ⟨c, Finset.mem_univ c, ?_⟩
        rw [if_pos (conserving.arrived t c runs)]
        exact conserving.unfinished t c runs
    omega

/-- Two work-conserving schedules of the same jobs have done the same amount of
work at any step. -/
theorem workDone_agrees (first : WorkConserving arrival work σ)
    (second : WorkConserving arrival work τ) (t : Nat) :
    workDone σ t = workDone τ t := by
  induction t with
  | zero => rfl
  | succ t inductionHypothesis =>
      have same : σ t = none ↔ τ t = none := by
        rw [first.idle_iff, second.idle_iff, inductionHypothesis]
      simp only [workDone_succ, inductionHypothesis, same]

/-- Two work-conserving schedules of the same jobs idle at the same steps. -/
theorem idle_agrees (first : WorkConserving arrival work σ)
    (second : WorkConserving arrival work τ) (t : Nat) :
    σ t = none ↔ τ t = none := by
  rw [first.idle_iff, second.idle_iff, workDone_agrees first second]

/-- While a job that has arrived is unfinished, every step does some work. -/
theorem WorkConserving.workDone_add (conserving : WorkConserving arrival work σ)
    {i : ι} {s m : Nat} (arrived : arrival i ≤ s)
    (unfinished : ∀ t, s ≤ t → t < s + m → ran σ i t < work i) :
    workDone σ (s + m) = workDone σ s + m := by
  induction m with
  | zero => rfl
  | succ m inductionHypothesis =>
      have goesOn := unfinished (s + m) (Nat.le_add_right s m) (by omega)
      have busy : σ (s + m) ≠ none := by
        intro isIdle
        have finished := conserving.idle (s + m) isIdle i (by omega)
        omega
      rw [← Nat.add_assoc, workDone_succ, if_neg busy, inductionHypothesis
        fun t from_ lt => unfinished t from_ (by omega)]
      omega

/-- Every job completes. -/
theorem WorkConserving.completes (conserving : WorkConserving arrival work σ)
    {i : ι} (positive : 0 < work i) : ∃ d, CompletesAt work σ i d := by
  by_contra never
  have unfinished (t : Nat) : ran σ i t < work i := by
    refine Nat.lt_of_le_of_ne (conserving.ran_le i t) fun all => ?_
    exact never (exists_completesAt positive all)
  have done := conserving.workDone_add (m := ∑ j, work j + 1)
    (Nat.le_refl (arrival i)) fun t _ _ => unfinished t
  have bound : workDone σ (arrival i + (∑ j, work j + 1)) ≤ ∑ j, work j :=
    Finset.sum_le_sum fun j _ => conserving.ran_le j _
  omega

/-- A job takes at most as long as the shares that all jobs get between its
arrival and its completion. -/
theorem WorkConserving.response_le (conserving : WorkConserving arrival work σ)
    {i : ι} {d : Nat} (completes : CompletesAt work σ i d) (share : ι → Nat)
    (shares : ∀ j, ran σ j d ≤ ran σ j (arrival i) + share j) :
    d ≤ arrival i + ∑ j, share j := by
  rcases Nat.le_total d (arrival i) with early | late
  · exact Nat.le_trans early (Nat.le_add_right _ _)
  · have done := conserving.workDone_add (m := d - arrival i)
      (Nat.le_refl (arrival i)) fun t _ lt =>
        (conserving.unfinished_iff completes).mpr (by omega)
    rw [Nat.add_sub_cancel' late] at done
    have bound : workDone σ d ≤ workDone σ (arrival i) + ∑ j, share j := by
      unfold workDone
      rw [← Finset.sum_add_distrib]
      exact Finset.sum_le_sum fun j _ => shares j
    omega

end Schedules

end OsPAs.Lib
