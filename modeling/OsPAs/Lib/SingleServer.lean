/-
Module: OsPAs.Lib.SingleServer
Purpose: A single server that takes the jobs in a fixed order.  Every job runs
  in one block: it begins when it has arrived and the job before it is done.
  Of the orders in which jobs can be run back to back, the one by length has
  the least sum of completion times.
Trusted boundary: none
Main exports: Before, orderBy, endOf, InOrder, InOrder.runsInBlock, InOrder.completes, totalFrom,
  totalFrom_le_of_perm, sum_freeAfter
-/
import OsPAs.Lib.WorkConserving
import Mathlib.Algebra.Ring.Nat
import Mathlib.Data.List.FinRange
import Mathlib.Data.List.Sort

namespace OsPAs.Lib

variable {ι : Type}

/-! ### Orders -/

/-- `i` comes before `j`: its key is less, or the keys are equal and its number is
less. -/
def Before {n : Nat} (key : Fin n → Nat) (i j : Fin n) : Prop :=
  key i < key j ∨ key i = key j ∧ i < j

instance {n : Nat} (key : Fin n → Nat) : DecidableRel (Before key) :=
  fun _ _ => inferInstanceAs (Decidable (_ ∨ _))

/-- All jobs by their keys, those of equal keys by their numbers. -/
def orderBy {n : Nat} (key : Fin n → Nat) : List (Fin n) :=
  (List.finRange n).insertionSort fun i j => ¬ Before key j i

section Orders

variable {n : Nat} {key : Fin n → Nat} {i j : Fin n}

theorem Before.asymm (before : Before key i j) : ¬ Before key j i := by
  unfold Before at before ⊢
  omega

theorem orderBy_perm (key : Fin n → Nat) :
    (orderBy key).Perm (List.finRange n) :=
  List.perm_insertionSort _ _

theorem mem_orderBy (key : Fin n → Nat) (i : Fin n) : i ∈ orderBy key :=
  (orderBy_perm key).mem_iff.mpr (List.mem_finRange i)

theorem orderBy_pairwise (key : Fin n → Nat) :
    (orderBy key).Pairwise (Before key) := by
  have total : Std.Total fun i j : Fin n => ¬ Before key j i :=
    ⟨fun i j => by unfold Before; omega⟩
  have trans : IsTrans (Fin n) fun i j => ¬ Before key j i :=
    ⟨fun i j k => by unfold Before; omega⟩
  have nodup : (orderBy key).Nodup :=
    (orderBy_perm key).nodup_iff.mpr (List.nodup_finRange n)
  have sorted : (orderBy key).Pairwise fun i j => ¬ Before key j i :=
    List.pairwise_insertionSort _ _
  refine (sorted.and nodup).imp fun {i j} both => ?_
  obtain ⟨notAfter, differ⟩ := both
  have numbers := Fin.val_ne_of_ne differ
  unfold Before at notAfter ⊢
  omega

end Orders

/-! ### The recurrence -/

/-- When the server is done with the jobs, which it takes one after the other
from step `free` on. -/
def freeAfter (arrival work : ι → Nat) (free : Nat) (jobs : List ι) : Nat :=
  jobs.foldl (fun free i => max (arrival i) free + work i) free

/-- When the server is done with the first `k` jobs of the order. -/
def endOf (arrival work : ι → Nat) (order : List ι) (k : Nat) : Nat :=
  freeAfter arrival work 0 (order.take k)

section Recurrence

variable {arrival work : ι → Nat} {order : List ι} {i : ι} {k l : Nat}

@[simp] theorem endOf_zero : endOf arrival work order 0 = 0 := by
  simp [endOf, freeAfter]

theorem freeAfter_append (free : Nat) (jobs more : List ι) :
    freeAfter arrival work free (jobs ++ more) =
      freeAfter arrival work (freeAfter arrival work free jobs) more :=
  List.foldl_append

theorem endOf_succ (arrival work : ι → Nat) (isNext : order[k]? = some i) :
    endOf arrival work order (k + 1) =
      max (arrival i) (endOf arrival work order k) + work i := by
  unfold endOf
  rw [List.take_add_one, isNext, freeAfter_append]
  rfl

theorem le_endOf_succ : endOf arrival work order k ≤ endOf arrival work order (k + 1) := by
  cases next : order[k]? with
  | none =>
      have all : order.take (k + 1) = order.take k := by
        rw [List.take_add_one, next]
        exact List.append_nil _
      rw [endOf, endOf, all]
  | some i =>
      rw [endOf_succ arrival work next]
      omega

theorem endOf_mono (arrival work : ι → Nat) (order : List ι) (le : k ≤ l) :
    endOf arrival work order k ≤ endOf arrival work order l := by
  induction le with
  | refl => exact Nat.le_refl _
  | step _ inductionHypothesis =>
      exact Nat.le_trans inductionHypothesis le_endOf_succ

/-- Every job has arrived by the end of the last block. -/
theorem arrival_le_endOf (member : i ∈ order) :
    arrival i ≤ endOf arrival work order order.length := by
  obtain ⟨k, isNext⟩ := List.mem_iff_getElem?.mp member
  obtain ⟨inBounds, _⟩ := List.getElem?_eq_some_iff.mp isNext
  have ends := endOf_succ arrival work isNext
  have mono := endOf_mono arrival work order
    (Nat.succ_le_of_lt inBounds)
  rw [Nat.succ_eq_add_one] at mono
  omega

end Recurrence

/-! ### Schedules that follow an order -/

/-- The schedule runs a job only when those in front of it are finished. -/
def InOrder (work : ι → Nat) [DecidableEq ι] (order : List ι)
    (σ : Nat → Option ι) : Prop :=
  order.Pairwise fun i j => ∀ t, σ t = some j → ran σ i t = work i

section Schedules

variable [DecidableEq ι] {arrival work : ι → Nat} {σ : Nat → Option ι}
  {order : List ι} {i j : ι} {b k l t : Nat}

/-- How long a job has run that runs from step `b` on. -/
theorem ran_of_window (runs : ∀ u < t, (σ u = some i ↔ b ≤ u)) :
    ran σ i t = t - b := by
  induction t with
  | zero => simp [ran]
  | succ t inductionHypothesis =>
      rw [ran_succ, inductionHypothesis fun u earlier =>
        runs u (Nat.lt_succ_of_lt earlier)]
      by_cases begun : b ≤ t
      · rw [if_pos ((runs t (Nat.lt_succ_self t)).mpr begun)]
        omega
      · rw [if_neg (mt (runs t (Nat.lt_succ_self t)).mp begun)]
        omega

/-- The job behind the first `k` runs exactly in its block. -/
def RunsInBlock (arrival work : ι → Nat) (order : List ι) (σ : Nat → Option ι)
    (k : Nat) (i : ι) : Prop :=
  ∀ t, σ t = some i ↔ max (arrival i) (endOf arrival work order k) ≤ t ∧
    t < endOf arrival work order (k + 1)

/-- How long a job has run by the end of its block. -/
theorem RunsInBlock.ran (block : RunsInBlock arrival work order σ k i)
    (within : t ≤ endOf arrival work order (k + 1)) :
    OsPAs.Lib.ran σ i t = t - max (arrival i) (endOf arrival work order k) :=
  ran_of_window fun u earlier =>
    (block u).trans (and_iff_left (Nat.lt_of_lt_of_le earlier within))

theorem InOrder.finished (follows : InOrder work order σ)
    (first : order[k]? = some i) (second : order[l]? = some j) (before : k < l)
    (runs : σ t = some j) : ran σ i t = work i := by
  obtain ⟨inBounds, rfl⟩ := List.getElem?_eq_some_iff.mp second
  obtain ⟨inBounds', rfl⟩ := List.getElem?_eq_some_iff.mp first
  exact List.pairwise_iff_getElem.mp follows k l inBounds' inBounds before t runs

/-- The jobs in front are finished once the server is done with them. -/
theorem RunsInBlock.finished (block : RunsInBlock arrival work order σ l j)
    (isFront : order[l]? = some j) (before : l < k)
    (done : endOf arrival work order k ≤ t) : work j ≤ OsPAs.Lib.ran σ j t := by
  have ends := endOf_succ arrival work isFront
  have mono := endOf_mono arrival work order
    (Nat.succ_le_of_lt before)
  have atEnd := block.ran (Nat.le_refl _)
  have later := ran_mono σ j (Nat.le_trans mono done)
  rw [Nat.succ_eq_add_one] at later
  omega

/-- A job does not run before it has arrived and those in front are done. -/
theorem InOrder.not_early (follows : InOrder work order σ)
    (conserving : WorkConserving arrival work σ) (positive : ∀ i, 0 < work i)
    (isNext : order[k]? = some i)
    (earlier : ∀ l < k, ∀ j, order[l]? = some j →
      RunsInBlock arrival work order σ l j)
    (early : t < max (arrival i) (endOf arrival work order k)) :
    σ t ≠ some i := by
  intro runs
  have arrived := conserving.arrived t i runs
  cases k with
  | zero =>
      rw [endOf_zero] at early
      omega
  | succ k =>
      obtain ⟨inBounds, _⟩ := List.getElem?_eq_some_iff.mp isNext
      have isFront : order[k]? = some order[k] :=
        List.getElem?_eq_getElem (Nat.lt_of_succ_lt inBounds)
      have block := earlier k (Nat.lt_succ_self k) _ isFront
      have ends := endOf_succ arrival work isFront
      have finished := follows.finished isFront isNext (Nat.lt_succ_self k) runs
      have begun := block.ran (t := t) (by omega)
      have unit := positive order[k]
      omega

/-- In a work-conserving schedule that follows the order, every job runs in one
block, from the step on at which it has arrived and those in front are done. -/
theorem InOrder.runsInBlock (follows : InOrder work order σ)
    (conserving : WorkConserving arrival work σ) (complete : ∀ i, i ∈ order)
    (positive : ∀ i, 0 < work i) (isNext : order[k]? = some i) :
    RunsInBlock arrival work order σ k i := by
  induction k using Nat.strong_induction_on generalizing i with
  | _ k inductionHypothesis =>
  have earlier : ∀ l < k, ∀ j, order[l]? = some j →
      RunsInBlock arrival work order σ l j :=
    fun l before j isFront => inductionHypothesis l before isFront
  have ends := endOf_succ arrival work isNext
  -- within the block nobody else can run, and the server does not idle
  have inside : ∀ t < endOf arrival work order (k + 1), (σ t = some i ↔
      max (arrival i) (endOf arrival work order k) ≤ t) := by
    intro t
    induction t using Nat.strong_induction_on with
    | _ t soFar =>
    intro within
    constructor
    · intro runs
      by_contra early
      exact follows.not_early conserving positive isNext earlier
        (Nat.not_le.mp early) runs
    · intro begun
      have age := ran_of_window fun u before =>
        soFar u before (Nat.lt_trans before within)
      cases runs : σ t with
      | none =>
          have idle := conserving.idle t runs i (by omega)
          omega
      | some j =>
          obtain ⟨l, isJ⟩ := List.mem_iff_getElem?.mp (complete j)
          have unfinished := conserving.unfinished t j runs
          rcases Nat.lt_trichotomy l k with before | rfl | behind
          · have done : endOf arrival work order k ≤ t := by omega
            have finished := (earlier l before j isJ).finished isJ before done
            omega
          · rw [← isJ, isNext]
          · have finished := follows.finished isNext isJ behind runs
            omega
  intro t
  by_cases within : t < endOf arrival work order (k + 1)
  · rw [inside t within, and_iff_left within]
  · refine iff_of_false (fun runs => ?_) fun inBlock => within inBlock.2
    have all := ran_of_window inside
    have later := ran_mono σ i (Nat.not_lt.mp within)
    have unfinished := conserving.unfinished t i runs
    omega

/-- Every job is finished at the end of the last block. -/
theorem InOrder.finished_at_end (follows : InOrder work order σ)
    (conserving : WorkConserving arrival work σ) (complete : ∀ i, i ∈ order)
    (positive : ∀ i, 0 < work i) (i : ι) :
    work i ≤ ran σ i (endOf arrival work order order.length) := by
  obtain ⟨k, isNext⟩ := List.mem_iff_getElem?.mp (complete i)
  obtain ⟨inBounds, _⟩ := List.getElem?_eq_some_iff.mp isNext
  exact (follows.runsInBlock conserving complete positive isNext).finished isNext
    inBounds (Nat.le_refl _)

/-- Until then some job is unfinished, the last one. -/
theorem InOrder.unfinished_before_end (follows : InOrder work order σ)
    (conserving : WorkConserving arrival work σ) (complete : ∀ i, i ∈ order)
    (positive : ∀ i, 0 < work i)
    (early : t < endOf arrival work order order.length) :
    ∃ i, ran σ i t < work i := by
  cases length : order.length with
  | zero =>
      rw [length, endOf_zero] at early
      omega
  | succ k =>
      obtain ⟨last, isLast⟩ : ∃ last, order[k]? = some last :=
        ⟨_, List.getElem?_eq_getElem (by omega)⟩
      have ends := endOf_succ arrival work isLast
      have block := follows.runsInBlock conserving complete positive isLast
      rw [length] at early
      have soFar := block.ran (Nat.le_of_lt early)
      have unit := positive last
      exact ⟨last, by omega⟩

/-- The job completes at the end of its block. -/
theorem InOrder.completes (follows : InOrder work order σ)
    (conserving : WorkConserving arrival work σ) (complete : ∀ i, i ∈ order)
    (positive : ∀ i, 0 < work i) (isNext : order[k]? = some i) :
    CompletesAt work σ i (endOf arrival work order (k + 1)) := by
  have block := follows.runsInBlock conserving complete positive isNext
  have ends := endOf_succ arrival work isNext
  have unit := positive i
  refine ⟨endOf arrival work order (k + 1) - 1, by omega, ?_, ?_⟩
  · exact (block _).mpr (by omega)
  · rw [block.ran (by omega)]
    omega

end Schedules

/-! ### Batches -/

/-- Sum of the completion times of jobs of these lengths that are run back to
back from step `free` on. -/
def totalFrom : Nat → List Nat → Nat
  | _, [] => 0
  | free, w :: rest => (free + w) + totalFrom (free + w) rest

/-- Taking a shortest job to the front does not make the sum larger. -/
theorem totalFrom_front {a : Nat} {front : List Nat} (least : ∀ x ∈ front, a ≤ x)
    (back : List Nat) (free : Nat) :
    totalFrom free (a :: (front ++ back)) ≤
      totalFrom free (front ++ a :: back) := by
  induction front generalizing free with
  | nil => exact Nat.le_refl _
  | cons x front inductionHypothesis =>
      have shorter := least x List.mem_cons_self
      have rest := inductionHypothesis (fun y member =>
        least y (List.mem_cons_of_mem x member)) (free + x)
      simp only [List.cons_append, totalFrom] at rest ⊢
      rw [Nat.add_right_comm free a x]
      omega

/-- Running the jobs by length gives the least sum. -/
theorem totalFrom_le_of_perm {sorted other : List Nat}
    (ascending : sorted.Pairwise (· ≤ ·)) (perm : sorted.Perm other)
    (free : Nat) : totalFrom free sorted ≤ totalFrom free other := by
  induction sorted generalizing other free with
  | nil => rw [perm.nil_eq]
  | cons a sorted inductionHypothesis =>
      obtain ⟨least, ascending⟩ := List.pairwise_cons.mp ascending
      obtain ⟨front, back, rfl⟩ :=
        List.append_of_mem (perm.subset List.mem_cons_self)
      have rest : sorted.Perm (front ++ back) :=
        (perm.trans List.perm_middle).cons_inv
      have inFront : ∀ x ∈ front, a ≤ x := fun x member =>
        least x (rest.symm.subset (List.mem_append_left back member))
      calc totalFrom free (a :: sorted)
          ≤ totalFrom free (a :: (front ++ back)) :=
            Nat.add_le_add_left (inductionHypothesis ascending rest _) _
        _ ≤ totalFrom free (front ++ a :: back) :=
            totalFrom_front inFront back free

/-- The ends of the blocks of jobs that arrive together add up to the sum of the
completion times back to back. -/
theorem sum_freeAfter {arrival work : ι → Nat} {first : Nat} {order : List ι}
    (together : ∀ i ∈ order, arrival i = first) {f : ι → Nat} {free : Nat}
    (ends : ∀ k i, order[k]? = some i →
      f i = freeAfter arrival work free (order.take (k + 1))) :
    (order.map f).sum = totalFrom (max first free) (order.map work) := by
  induction order generalizing free with
  | nil => rfl
  | cons i order inductionHypothesis =>
      have isFirst := together i List.mem_cons_self
      have now : f i = max first free + work i := by
        rw [ends 0 i rfl, ← isFirst]
        rfl
      have later : ∀ k j, order[k]? = some j →
          f j = freeAfter arrival work (max first free + work i)
            (order.take (k + 1)) := by
        intro k j isNext
        rw [ends (k + 1) j isNext, ← isFirst]
        rfl
      have busy : max first (max first free + work i) =
          max first free + work i := by omega
      rw [List.map_cons, List.sum_cons, List.map_cons, totalFrom, now,
        inductionHypothesis (fun j member =>
          together j (List.mem_cons_of_mem i member)) later, busy]

/-- When job `i` of the order is done. -/
def completion [BEq ι] (arrival work : ι → Nat) (order : List ι) (i : ι) : Nat :=
  endOf arrival work order (order.idxOf i + 1)

section Completions

variable {arrival work : ι → Nat} {order : List ι} {first : Nat}

theorem sum_completion [BEq ι] [LawfulBEq ι] (nodup : order.Nodup)
    (together : ∀ i ∈ order, arrival i = first) :
    (order.map (completion arrival work order)).sum =
      totalFrom first (order.map work) := by
  have ends : ∀ k i, order[k]? = some i → completion arrival work order i =
      freeAfter arrival work 0 (order.take (k + 1)) := by
    intro k i isNext
    obtain ⟨inBounds, rfl⟩ := List.getElem?_eq_some_iff.mp isNext
    rw [completion, nodup.idxOf_getElem, endOf]
  have total := sum_freeAfter together ends
  rwa [Nat.max_zero] at total

/-- A job that comes before another is done first. -/
theorem completion_lt {n : Nat} {arrival work key : Fin n → Nat}
    (positive : ∀ i, 0 < work i) {i j : Fin n} (before : Before key i j) :
    completion arrival work (orderBy key) i <
      completion arrival work (orderBy key) j := by
  have isI := List.getElem?_idxOf (mem_orderBy key i)
  have isJ := List.getElem?_idxOf (mem_orderBy key j)
  have inOrder : (orderBy key).idxOf i < (orderBy key).idxOf j := by
    obtain ⟨boundI, atI⟩ := List.getElem?_eq_some_iff.mp isI
    obtain ⟨boundJ, atJ⟩ := List.getElem?_eq_some_iff.mp isJ
    by_contra notBefore
    rcases Nat.lt_or_eq_of_le (Nat.not_lt.mp notBefore) with after | same
    · have swapped := List.pairwise_iff_getElem.mp (orderBy_pairwise key) _ _
        boundJ boundI after
      rw [atI, atJ] at swapped
      exact before.asymm swapped
    · rw [← same, isJ] at isI
      obtain rfl := Option.some.inj isI
      exact before.asymm before
  have mono := endOf_mono arrival work (orderBy key)
    (Nat.succ_le_of_lt inOrder)
  have ends := endOf_succ arrival work isJ
  have unit := positive j
  unfold completion
  rw [Nat.succ_eq_add_one] at mono
  omega

end Completions

end OsPAs.Lib
