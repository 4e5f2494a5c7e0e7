/-
Module: OsPAs.Lib.ShortestFirst
Purpose: Preemptive single-machine scheduling in unit time steps.  Always
  running a job with the least work left minimises the sum of completion times
  among all feasible schedules.
Trusted boundary: none
Main exports: ran, Feasible, ShortestFirst, CompletesAt, Dominates,
  sum_le_of_unfinished_le, ShortestFirst.completes, shortestFirst_optimal
-/
import Mathlib.Algebra.BigOperators.Group.Finset.Basic
import Mathlib.Algebra.Order.BigOperators.Group.Finset
import Mathlib.Data.Fintype.Card
import Mathlib.Data.Fintype.BigOperators
import Mathlib.Tactic.Common

namespace OsPAs.Lib

variable {ι : Type} [DecidableEq ι]

/-! ### Schedules -/

/-- Number of steps before step `t` that schedule `σ` gives to job `i`. -/
def ran (σ : Nat → Option ι) (i : ι) : Nat → Nat
  | 0 => 0
  | t + 1 => ran σ i t + if σ t = some i then 1 else 0

/-- Work of job `i` left at step `t`. -/
def left (work : ι → Nat) (σ : Nat → Option ι) (i : ι) (t : Nat) : Nat :=
  work i - ran σ i t

/-- A schedule runs only jobs that have arrived and are not finished. -/
structure Feasible (arrival work : ι → Nat) (σ : Nat → Option ι) : Prop where
  arrived : ∀ t i, σ t = some i → arrival i ≤ t
  unfinished : ∀ t i, σ t = some i → ran σ i t < work i

/-- Job `i` completes at step `d`: the step before is its last one. -/
def CompletesAt (work : ι → Nat) (σ : Nat → Option ι) (i : ι) (d : Nat) : Prop :=
  ∃ t, d = t + 1 ∧ σ t = some i ∧ ran σ i (t + 1) = work i

/-- A schedule that idles only when every job that has arrived is finished, and
otherwise runs a job with the least work left. -/
structure ShortestFirst (arrival work : ι → Nat) (σ : Nat → Option ι) : Prop
    extends Feasible arrival work σ where
  idle : ∀ t, σ t = none → ∀ i, arrival i ≤ t → left work σ i t = 0
  shortest : ∀ t c, σ t = some c → ∀ i, arrival i ≤ t → 0 < left work σ i t →
    left work σ c t ≤ left work σ i t

section Schedules

variable {arrival work : ι → Nat} {σ : Nat → Option ι} {i : ι} {t u : Nat}

theorem ran_succ (σ : Nat → Option ι) (i : ι) (t : Nat) :
    ran σ i (t + 1) = ran σ i t + if σ t = some i then 1 else 0 := rfl

theorem ran_mono (σ : Nat → Option ι) (i : ι) {t u : Nat} (le : t ≤ u) :
    ran σ i t ≤ ran σ i u := by
  induction le with
  | refl => exact Nat.le_refl _
  | step _ inductionHypothesis =>
      apply Nat.le_trans inductionHypothesis
      rw [ran_succ]
      exact Nat.le_add_right _ _

theorem Feasible.ran_le (feasible : Feasible arrival work σ) (i : ι) (t : Nat) :
    ran σ i t ≤ work i := by
  induction t with
  | zero => exact Nat.zero_le _
  | succ t inductionHypothesis =>
      rw [ran_succ]
      split
      · rename_i runs
        exact feasible.unfinished t i runs
      · exact inductionHypothesis

/-- A job that has not arrived has not run. -/
theorem Feasible.ran_of_not_arrived (feasible : Feasible arrival work σ)
    (late : t ≤ arrival i) : ran σ i t = 0 := by
  induction t with
  | zero => rfl
  | succ t inductionHypothesis =>
      rw [ran_succ, inductionHypothesis (Nat.le_of_succ_le late), if_neg]
      intro runs
      have arrived := feasible.arrived t i runs
      omega

/-- A job is unfinished up to its completion and finished from then on. -/
theorem Feasible.unfinished_iff (feasible : Feasible arrival work σ) {d : Nat}
    (completes : CompletesAt work σ i d) : ran σ i t < work i ↔ t < d := by
  obtain ⟨last, rfl, runs, all⟩ := completes
  have before := feasible.unfinished last i runs
  constructor
  · intro unfinished
    by_contra late
    have mono := ran_mono σ i (Nat.not_lt.mp late)
    omega
  · intro early
    have mono := ran_mono σ i (Nat.le_of_lt_succ early)
    omega

theorem Feasible.completes_unique (feasible : Feasible arrival work σ)
    {d e : Nat} (first : CompletesAt work σ i d)
    (second : CompletesAt work σ i e) : d = e := by
  have same (t : Nat) : t < d ↔ t < e := by
    rw [← feasible.unfinished_iff first, ← feasible.unfinished_iff second]
  have notFirst := (same d).not.mp (Nat.lt_irrefl d)
  have notSecond := (same e).not.mpr (Nat.lt_irrefl e)
  omega

/-- A job that is finished at some step has completed at some step. -/
theorem exists_completesAt (positive : 0 < work i) (all : ran σ i t = work i) :
    ∃ d, CompletesAt work σ i d := by
  induction t with
  | zero =>
      rw [ran] at all
      omega
  | succ t inductionHypothesis =>
      by_cases runs : σ t = some i
      · exact ⟨t + 1, t, rfl, runs, all⟩
      · apply inductionHypothesis
        rw [ran_succ, if_neg runs] at all
        exact all

theorem left_succ (work : ι → Nat) (σ : Nat → Option ι) (i : ι) (t : Nat) :
    left work σ i (t + 1) = left work σ i t - if σ t = some i then 1 else 0 := by
  unfold left
  rw [ran_succ]
  split
  · omega
  · omega

end Schedules

/-! ### Dominance -/

/-- The work `r` on the jobs of `A` is no worse than the work `q`: whatever jobs
are left out on the side of `q`, as many can be left out on the side of `r` so
that no more work remains. -/
def Dominates (A : Finset ι) (r q : ι → Nat) : Prop :=
  ∀ J, J ⊆ A → ∃ K, K ⊆ A ∧ K.card ≤ J.card ∧
    ∑ i ∈ A \ K, r i ≤ ∑ i ∈ A \ J, q i

section Dominance

variable {A B : Finset ι} {r q r' q' : ι → Nat}

theorem Dominates.of_eq (same : ∀ i ∈ A, r i = q i) : Dominates A r q :=
  fun J within => ⟨J, within, Nat.le_refl _, Nat.le_of_eq
    (Finset.sum_congr rfl fun i member =>
      same i (Finset.mem_sdiff.mp member).1)⟩

/-- New jobs with equal work on both sides do not matter. -/
theorem Dominates.arrive (dominates : Dominates A r q) (grows : A ⊆ B)
    (same : ∀ i ∈ B \ A, r i = q i) : Dominates B r q := by
  intro J within
  obtain ⟨K, kept, smaller, less⟩ :=
    dominates (J ∩ A) Finset.inter_subset_right
  have split (L : Finset ι) (f : ι → Nat) :
      ∑ i ∈ B \ L, f i = ∑ i ∈ A \ L, f i + ∑ i ∈ (B \ A) \ L, f i := by
    rw [← Finset.sum_union]
    · congr 1
      ext i
      simp only [Finset.mem_sdiff, Finset.mem_union]
      have sub := @grows i
      tauto
    · rw [Finset.disjoint_left]
      intro i inA inRest
      exact (Finset.mem_sdiff.mp (Finset.mem_sdiff.mp inRest).1).2
        (Finset.mem_sdiff.mp inA).1
  have cutK : A \ (K ∪ J \ A) = A \ K := by
    ext i
    simp only [Finset.mem_sdiff, Finset.mem_union]
    tauto
  have cutJ : A \ (J ∩ A) = A \ J := by
    ext i
    simp only [Finset.mem_sdiff, Finset.mem_inter]
    tauto
  have restK : (B \ A) \ (K ∪ J \ A) = (B \ A) \ J := by
    ext i
    simp only [Finset.mem_sdiff, Finset.mem_union]
    have sub := @kept i
    tauto
  refine ⟨K ∪ J \ A, ?_, ?_, ?_⟩
  · apply Finset.union_subset (kept.trans grows)
    exact Finset.sdiff_subset.trans within
  · calc (K ∪ J \ A).card ≤ K.card + (J \ A).card := Finset.card_union_le _ _
      _ ≤ (J ∩ A).card + (J \ A).card := Nat.add_le_add_right smaller _
      _ = J.card := Finset.card_inter_add_card_sdiff J A
  · rw [split (K ∪ J \ A) r, split J q, cutK, restK]
    rw [cutJ] at less
    apply Nat.add_le_add less
    apply Nat.le_of_eq
    exact Finset.sum_congr rfl fun i member =>
      same i (Finset.mem_sdiff.mp member).1

/-- When nothing is left on the side of `r`, nothing can be less. -/
theorem dominates_of_idle (nothing : ∀ i ∈ A, r i = 0) : Dominates A r q :=
  fun J within => ⟨J, within, Nat.le_refl _, by
    rw [Finset.sum_eq_zero fun i member =>
      nothing i (Finset.mem_sdiff.mp member).1]
    exact Nat.zero_le _⟩

/-- One step: a job `c` with the least work left loses a unit on the side of
`r`, while at most one unit is lost on the side of `q`. -/
theorem Dominates.step (dominates : Dominates A r q) {c : ι} (inA : c ∈ A)
    (runs : r' c + 1 = r c) (others : ∀ i, i ≠ c → r' i = r i)
    (shortest : ∀ i ∈ A, 0 < r i → r c ≤ r i)
    (unit : ∀ S ⊆ A, ∑ i ∈ S, q i ≤ ∑ i ∈ S, q' i + 1) :
    Dominates A r' q' := by
  intro J within
  obtain ⟨K, kept, smaller, less⟩ := dominates J within
  have bound := unit (A \ J) Finset.sdiff_subset
  have sumOf (S : Finset ι) (member : c ∈ S) :
      ∑ i ∈ S, r' i + 1 = ∑ i ∈ S, r i := by
    have first := Finset.add_sum_erase S r' member
    have second := Finset.add_sum_erase S r member
    have rest : ∑ i ∈ S.erase c, r' i = ∑ i ∈ S.erase c, r i :=
      Finset.sum_congr rfl fun i inRest =>
        others i (Finset.ne_of_mem_erase inRest)
    omega
  have sumNot (S : Finset ι) (outside : c ∉ S) :
      ∑ i ∈ S, r' i = ∑ i ∈ S, r i :=
    Finset.sum_congr rfl fun i member =>
      others i fun same => outside (same ▸ member)
  by_cases leftOut : c ∈ K
  · have outside : c ∉ A \ K := fun member =>
      (Finset.mem_sdiff.mp member).2 leftOut
    by_cases nothing : ∀ i ∈ A \ K, r i = 0
    · refine ⟨K, kept, smaller, ?_⟩
      rw [sumNot _ outside, Finset.sum_eq_zero nothing]
      exact Nat.zero_le _
    · -- leave out a job `j` with more work in place of `c`
      push Not at nothing
      obtain ⟨j, inRest, positive⟩ := nothing
      obtain ⟨jInA, jNotK⟩ := Finset.mem_sdiff.mp inRest
      have longer := shortest j jInA (Nat.pos_of_ne_zero positive)
      have differ : j ≠ c := fun same => jNotK (same ▸ leftOut)
      have swapped : A \ insert j (K.erase c) = insert c ((A \ K).erase j) := by
        ext i
        simp only [Finset.mem_sdiff, Finset.mem_insert, Finset.mem_erase]
        constructor
        · rintro ⟨iInA, notSwapped⟩
          by_cases same : i = c
          · exact Or.inl same
          · exact Or.inr ⟨fun isJ => notSwapped (Or.inl isJ), iInA,
              fun inK => notSwapped (Or.inr ⟨same, inK⟩)⟩
        · rintro (rfl | ⟨notJ, iInA, notK⟩)
          · exact ⟨inA, by simp [Ne.symm differ]⟩
          · refine ⟨iInA, ?_⟩
            rintro (isJ | ⟨_, inK⟩)
            · exact notJ isJ
            · exact notK inK
      have cOutside : c ∉ (A \ K).erase j := fun member =>
        outside (Finset.mem_of_mem_erase member)
      have total := Finset.add_sum_erase (A \ K) r inRest
      refine ⟨insert j (K.erase c), ?_, ?_, ?_⟩
      · apply Finset.insert_subset jInA
        exact (Finset.erase_subset c K).trans kept
      · rw [Finset.card_insert_of_notMem
          (fun member => jNotK (Finset.mem_of_mem_erase member)),
          Finset.card_erase_add_one leftOut]
        exact smaller
      · rw [swapped, Finset.sum_insert cOutside, sumNot _ cOutside]
        omega
  · refine ⟨K, kept, smaller, ?_⟩
    have lost := sumOf (A \ K) (Finset.mem_sdiff.mpr ⟨inA, leftOut⟩)
    omega

/-- The side of `r` has no more unfinished jobs. -/
theorem Dominates.card_unfinished_le (dominates : Dominates A r q) :
    (A.filter fun i => 0 < r i).card ≤ (A.filter fun i => 0 < q i).card := by
  obtain ⟨K, _, smaller, less⟩ :=
    dominates (A.filter fun i => 0 < q i) (Finset.filter_subset _ A)
  have nothingQ : ∑ i ∈ A \ A.filter (fun i => 0 < q i), q i = 0 := by
    apply Finset.sum_eq_zero
    intro i member
    obtain ⟨inA, finished⟩ := Finset.mem_sdiff.mp member
    by_contra positive
    exact finished (Finset.mem_filter.mpr ⟨inA, Nat.pos_of_ne_zero positive⟩)
  rw [nothingQ, Nat.le_zero, Finset.sum_eq_zero_iff] at less
  apply Nat.le_trans (Finset.card_le_card ?_) smaller
  intro i member
  obtain ⟨inA, positive⟩ := Finset.mem_filter.mp member
  by_contra notK
  exact Nat.ne_of_gt positive (less i (Finset.mem_sdiff.mpr ⟨inA, notK⟩))

end Dominance

/-! ### Completion times -/

section Optimality

variable [Fintype ι] {arrival work : ι → Nat} {σ τ : Nat → Option ι}

omit [DecidableEq ι] in
/-- Fewer unfinished jobs at every step means a smaller sum of completion
times. -/
theorem sum_le_of_unfinished_le {C D : ι → Nat}
    (fewer : ∀ t, (Finset.univ.filter fun i => t < C i).card ≤
      (Finset.univ.filter fun i => t < D i).card) :
    ∑ i, C i ≤ ∑ i, D i := by
  -- both sums count, step by step, the jobs that are still unfinished
  have counted (E : ι → Nat) {T : Nat} (enough : ∀ i, E i ≤ T) :
      ∑ i, E i =
        ∑ t ∈ Finset.range T, (Finset.univ.filter fun i => t < E i).card := by
    have one (i : ι) :
        E i = ∑ t ∈ Finset.range T, if t < E i then 1 else 0 := by
      rw [← Finset.sum_filter, ← Finset.card_eq_sum_ones]
      have cut : (Finset.range T).filter (fun t => t < E i) =
          Finset.range (E i) := by
        ext t
        simp only [Finset.mem_filter, Finset.mem_range]
        have bound := enough i
        omega
      rw [cut, Finset.card_range]
    calc ∑ i, E i = ∑ i, ∑ t ∈ Finset.range T, if t < E i then 1 else 0 :=
          Finset.sum_congr rfl fun i _ => one i
      _ = ∑ t ∈ Finset.range T, ∑ i, if t < E i then 1 else 0 :=
          Finset.sum_comm
      _ = ∑ t ∈ Finset.range T,
            (Finset.univ.filter fun i => t < E i).card := by
          refine Finset.sum_congr rfl fun t _ => ?_
          rw [← Finset.sum_filter, ← Finset.card_eq_sum_ones]
  have enoughC (i : ι) : C i ≤ ∑ j, C j + ∑ j, D j :=
    Nat.le_trans (Finset.single_le_sum (fun _ _ => Nat.zero_le _)
      (Finset.mem_univ i)) (Nat.le_add_right _ _)
  have enoughD (i : ι) : D i ≤ ∑ j, C j + ∑ j, D j :=
    Nat.le_trans (Finset.single_le_sum (fun _ _ => Nat.zero_le _)
      (Finset.mem_univ i)) (Nat.le_add_left _ _)
  calc ∑ i, C i
      = ∑ t ∈ Finset.range (∑ j, C j + ∑ j, D j),
          (Finset.univ.filter fun i => t < C i).card := counted C enoughC
    _ ≤ ∑ t ∈ Finset.range (∑ j, C j + ∑ j, D j),
          (Finset.univ.filter fun i => t < D i).card :=
        Finset.sum_le_sum fun t _ => fewer t
    _ = ∑ i, D i := (counted D enoughD).symm

/-- The jobs that have arrived by step `t`. -/
def arrivedBy (arrival : ι → Nat) (t : Nat) : Finset ι :=
  Finset.univ.filter fun i => arrival i ≤ t

omit [DecidableEq ι] in
theorem mem_arrivedBy {i : ι} {t : Nat} :
    i ∈ arrivedBy arrival t ↔ arrival i ≤ t := by
  simp [arrivedBy]

omit [Fintype ι] in
/-- In one step a schedule loses at most one unit of work in total. -/
theorem sum_left_le_succ (work : ι → Nat) (τ : Nat → Option ι) (t : Nat)
    (S : Finset ι) :
    ∑ i ∈ S, left work τ i t ≤ ∑ i ∈ S, left work τ i (t + 1) + 1 := by
  have each (i : ι) : left work τ i t ≤
      left work τ i (t + 1) + if τ t = some i then 1 else 0 := by
    rw [left_succ]
    omega
  have once : ∑ i ∈ S, (if τ t = some i then 1 else 0) ≤ 1 := by
    rw [← Finset.sum_filter, ← Finset.card_eq_sum_ones, Finset.card_le_one]
    intro i iRuns j jRuns
    exact Option.some.inj
      ((Finset.mem_filter.mp iRuns).2.symm.trans (Finset.mem_filter.mp jRuns).2)
  calc ∑ i ∈ S, left work τ i t
      ≤ ∑ i ∈ S, (left work τ i (t + 1) + if τ t = some i then 1 else 0) :=
        Finset.sum_le_sum fun i _ => each i
    _ = ∑ i ∈ S, left work τ i (t + 1) +
          ∑ i ∈ S, (if τ t = some i then 1 else 0) := Finset.sum_add_distrib
    _ ≤ ∑ i ∈ S, left work τ i (t + 1) + 1 := Nat.add_le_add_left once _

/-- Shortest first dominates every feasible schedule at every step, on the jobs
that have arrived. -/
theorem ShortestFirst.dominates (first : ShortestFirst arrival work σ)
    (feasible : Feasible arrival work τ) (t : Nat) :
    Dominates (arrivedBy arrival t) (fun i => left work σ i t)
      (fun i => left work τ i t) := by
  have untouched (i : ι) (t : Nat) (late : t ≤ arrival i) :
      left work σ i t = left work τ i t := by
    unfold left
    rw [first.ran_of_not_arrived late, feasible.ran_of_not_arrived late]
  induction t with
  | zero => exact .of_eq fun i _ => rfl
  | succ t inductionHypothesis =>
      have stepped : Dominates (arrivedBy arrival t)
          (fun i => left work σ i (t + 1)) (fun i => left work τ i (t + 1)) := by
        cases running : σ t with
        | none =>
            apply dominates_of_idle
            intro i arrived
            have idle := first.idle t running i (mem_arrivedBy.mp arrived)
            rw [left_succ, idle, Nat.zero_sub]
        | some c =>
            have unfinished := first.unfinished t c running
            refine inductionHypothesis.step (c := c)
              (mem_arrivedBy.mpr (first.arrived t c running)) ?_ ?_ ?_
              fun S _ => sum_left_le_succ work τ t S
            · rw [left_succ, if_pos running]
              unfold left
              omega
            · intro i other
              rw [left_succ, if_neg]
              · exact Nat.sub_zero _
              · rw [running]
                exact fun same => other (Option.some.inj same).symm
            · intro i arrived
              exact first.shortest t c running i (mem_arrivedBy.mp arrived)
      refine stepped.arrive ?_ ?_
      · intro i arrived
        exact mem_arrivedBy.mpr
          (Nat.le_succ_of_le (mem_arrivedBy.mp arrived))
      · intro i new
        obtain ⟨_, notBefore⟩ := Finset.mem_sdiff.mp new
        rw [mem_arrivedBy] at notBefore
        exact untouched i (t + 1) (Nat.lt_of_not_le notBefore)

/-- Shortest first minimises the sum of completion times among all feasible
schedules that complete every job. -/
theorem shortestFirst_optimal (first : ShortestFirst arrival work σ)
    (feasible : Feasible arrival work τ) {C D : ι → Nat}
    (completes : ∀ i, CompletesAt work σ i (C i))
    (finishes : ∀ i, CompletesAt work τ i (D i)) : ∑ i, C i ≤ ∑ i, D i := by
  apply sum_le_of_unfinished_le
  intro t
  -- jobs that have not arrived are unfinished on both sides
  have split {ρ : Nat → Option ι} {E : ι → Nat}
      (allowed : Feasible arrival work ρ)
      (ends : ∀ i, CompletesAt work ρ i (E i)) :
      (Finset.univ.filter fun i => t < E i).card =
        ((arrivedBy arrival t).filter fun i => 0 < left work ρ i t).card +
          (arrivedBy arrival t)ᶜ.card := by
    rw [← Finset.card_union_of_disjoint]
    · congr 1
      ext i
      have iff := allowed.unfinished_iff (t := t) (ends i)
      have positive : 0 < left work ρ i t ↔ t < E i := by
        rw [← iff]
        unfold left
        omega
      simp only [Finset.mem_filter, Finset.mem_univ, true_and,
        Finset.mem_union, Finset.mem_compl, positive]
      constructor
      · intro early
        by_cases arrived : i ∈ arrivedBy arrival t
        · exact Or.inl ⟨arrived, early⟩
        · exact Or.inr arrived
      · rintro (⟨_, early⟩ | late)
        · exact early
        · obtain ⟨last, isEnd, runs, _⟩ := ends i
          have arrived := allowed.arrived last i runs
          rw [mem_arrivedBy] at late
          omega
    · rw [Finset.disjoint_left]
      intro i member outside
      exact (Finset.mem_compl.mp outside) (Finset.mem_filter.mp member).1
  rw [split first.toFeasible completes, split feasible finishes]
  exact Nat.add_le_add_right
    (first.dominates feasible t).card_unfinished_le _

/-- Shortest first completes every job. -/
theorem ShortestFirst.completes (first : ShortestFirst arrival work σ)
    (positive : ∀ i, 0 < work i) (i : ι) : ∃ d, CompletesAt work σ i d := by
  -- once everything has arrived, every step does a unit of the work left
  let start := ∑ j, arrival j
  have arrived (j : ι) (d : Nat) : arrival j ≤ start + d :=
    Nat.le_trans (Finset.single_le_sum (fun _ _ => Nat.zero_le _)
      (Finset.mem_univ j)) (Nat.le_add_right _ _)
  have shrinks (d : Nat) :
      ∑ j, left work σ j (start + d) ≤ ∑ j, left work σ j start - d := by
    induction d with
    | zero => exact Nat.le_refl _
    | succ d inductionHypothesis =>
        cases running : σ (start + d) with
        | none =>
            have nothing : ∑ j, left work σ j (start + (d + 1)) = 0 := by
              apply Finset.sum_eq_zero
              intro j _
              have idle := first.idle (start + d) running j (arrived j d)
              rw [← Nat.add_assoc, left_succ, idle, Nat.zero_sub]
            rw [nothing]
            exact Nat.zero_le _
        | some c =>
            have unfinished := first.unfinished (start + d) c running
            have less : ∑ j, left work σ j (start + (d + 1)) <
                ∑ j, left work σ j (start + d) := by
              apply Finset.sum_lt_sum
              · intro j _
                rw [← Nat.add_assoc, left_succ]
                exact Nat.sub_le _ _
              · refine ⟨c, Finset.mem_univ c, ?_⟩
                rw [← Nat.add_assoc, left_succ, if_pos running]
                unfold left
                omega
            omega
  have nothing := shrinks (∑ j, left work σ j start)
  rw [Nat.sub_self, Nat.le_zero, Finset.sum_eq_zero_iff] at nothing
  have finished : left work σ i (start + ∑ j, left work σ j start) = 0 :=
    nothing i (Finset.mem_univ i)
  generalize start + ∑ j, left work σ j start = T at finished
  have bound := first.ran_le i T
  unfold left at finished
  exact exists_completesAt (t := T) (positive i) (by omega)

end Optimality

end OsPAs.Lib
