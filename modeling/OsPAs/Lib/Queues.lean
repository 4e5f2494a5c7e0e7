/-
Module: OsPAs.Lib.Queues
Purpose: Queues: who is ahead of whom in one of them, and whose turn it is when
  everybody goes from the front to the end.  Families of queues over a finite
  index: how often an element occurs in all of them together, and what appending
  and erasing do to that number.  The first element of greatest key.
Trusted boundary: none
Main exports: exists_related, find_related, eraseP_related, Ahead,
  Ahead.append, Ahead.erase, next_turn, sum_exchange, occurrences,
  occurrences_append, occurrences_erase, occurrences_eq_zero,
  existsUnique_of_occurrences, FirstBest, FirstBest.unique, FirstBest.restrict
-/
import Mathlib.Algebra.BigOperators.Fin
import Mathlib.Algebra.Order.BigOperators.Group.Finset
import Mathlib.Data.Fintype.BigOperators
import Mathlib.Tactic.Common

namespace OsPAs.Lib

/-! ### Related queues -/

section Related

variable {α β : Type} {R : α → β → Prop} {p : α → Bool} {q : β → Bool}
  {list : List α} {list' : List β}

/-- Each member of the second list is related to a member of the first. -/
theorem exists_related (related : List.Forall₂ R list list') {b : β}
    (member : b ∈ list') : ∃ a ∈ list, R a b := by
  induction related with
  | nil => simp at member
  | cons holds _ inductionHypothesis =>
      rcases List.mem_cons.mp member with rfl | later
      · exact ⟨_, List.mem_cons_self, holds⟩
      · obtain ⟨a, inList, holds⟩ := inductionHypothesis later
        exact ⟨a, List.mem_cons_of_mem _ inList, holds⟩

/-- Searches that respect the relation find related members, or nobody. -/
theorem find_related (respects : ∀ a b, R a b → p a = q b)
    (related : List.Forall₂ R list list') :
    Option.Rel R (list.find? p) (list'.find? q) := by
  induction related with
  | nil => exact .none
  | @cons a b rest rest' first _ inductionHypothesis =>
      rw [List.find?_cons, List.find?_cons, respects a b first]
      cases q b with
      | true => exact .some first
      | false => exact inductionHypothesis

/-- Searches that respect the relation erase related members, or nobody. -/
theorem eraseP_related (respects : ∀ a b, R a b → p a = q b)
    (related : List.Forall₂ R list list') :
    List.Forall₂ R (list.eraseP p) (list'.eraseP q) := by
  induction related with
  | nil => exact .nil
  | @cons a b rest rest' first later inductionHypothesis =>
      rw [List.eraseP_cons, List.eraseP_cons, respects a b first]
      cases q b with
      | true => exact later
      | false => exact .cons first inductionHypothesis

end Related

/-! ### Order in one queue -/

section Order

variable {α : Type}

/-- `a` is in the queue, and `b` is not in front of it. -/
def Ahead (a b : α) (queue : List α) : Prop :=
  ∃ front back, queue = front ++ a :: back ∧ b ∉ front

theorem Ahead.mem {a b : α} {queue : List α} (ahead : Ahead a b queue) :
    a ∈ queue := by
  obtain ⟨front, back, rfl, _⟩ := ahead
  exact List.mem_append_right front List.mem_cons_self

/-- Whoever is in the queue is ahead of everybody who is not. -/
theorem ahead_of_mem {a b : α} {queue : List α} (isMember : a ∈ queue)
    (new : b ∉ queue) : Ahead a b queue := by
  obtain ⟨front, back, rfl⟩ := List.append_of_mem isMember
  exact ⟨front, back, rfl, fun member => new (List.mem_append_left _ member)⟩

/-- Newcomers join behind. -/
theorem Ahead.append {a b : α} {queue : List α} (ahead : Ahead a b queue)
    (newcomers : List α) : Ahead a b (queue ++ newcomers) := by
  obtain ⟨front, back, rfl, new⟩ := ahead
  exact ⟨front, back ++ newcomers, by simp, new⟩

/-- Others may leave from anywhere. -/
theorem Ahead.erase [DecidableEq α] {a b other : α} {queue : List α}
    (ahead : Ahead a b queue) (differ : other ≠ a) :
    Ahead a b (queue.erase other) := by
  obtain ⟨front, back, rfl, new⟩ := ahead
  by_cases isFront : other ∈ front
  · rw [List.erase_append_left _ isFront]
    exact ⟨front.erase other, back, rfl,
      fun member => new (List.mem_of_mem_erase member)⟩
  · rw [List.erase_append_right _ isFront, List.erase_cons_tail (by
      simpa using fun same => differ same.symm)]
    exact ⟨front, back.erase other, rfl, new⟩

/-- Where the queue is split at `b`, whoever is ahead of `b` is in front. -/
theorem Ahead.mem_front {a b : α} {front back : List α}
    (ahead : Ahead a b (front ++ b :: back)) (differ : a ≠ b) : a ∈ front := by
  obtain ⟨before, after, split, new⟩ := ahead
  rcases List.append_eq_append_iff.mp split with
    ⟨rest, rfl, eq⟩ | ⟨rest, rfl, eq⟩
  · cases rest with
    | nil => exact absurd (List.cons.inj eq).1.symm differ
    | cons head rest =>
        obtain ⟨rfl, _⟩ := List.cons.inj eq
        exact absurd (by simp) new
  · cases rest with
    | nil => exact absurd (List.cons.inj eq).1 differ
    | cons head rest =>
        obtain ⟨rfl, _⟩ := List.cons.inj eq
        simp

end Order

/-! ### Taking turns -/

section Turns

variable {α : Type} {line : Nat → List α} {front : List α} {p : α} {t u j : Nat}

/-- Where the first of the line leaves its place in every step and nobody but at
the end joins, the line moves up. -/
theorem line_moves_up (starts : line t = front ++ [p])
    (turns : ∀ k, t ≤ k → k < t + j →
      ∃ joined, line (k + 1) = (line k).tail ++ joined)
    (within : j ≤ front.length) :
    ∃ joined, line (t + j) = front.drop j ++ p :: joined := by
  induction j with
  | zero => exact ⟨[], starts⟩
  | succ j inductionHypothesis =>
      obtain ⟨joined, soFar⟩ := inductionHypothesis
        (fun k after before => turns k after (Nat.lt_succ_of_lt before))
        (Nat.le_of_succ_le within)
      obtain ⟨more, next⟩ := turns (t + j) (by omega) (by omega)
      refine ⟨joined ++ more, ?_⟩
      rw [← Nat.add_assoc, next, soFar, List.drop_eq_getElem_cons within,
        List.cons_append, List.tail_cons, List.append_assoc, List.cons_append]

/-- The last of the line comes to the front when everybody else has been there
once, in the order of the line. -/
theorem next_turn (starts : line t = front ++ [p]) (once : p ∉ front)
    (turns : ∀ k, t ≤ k → k < u →
      ∃ joined, line (k + 1) = (line k).tail ++ joined) (after : t ≤ u)
    (turn : (line u).head? = some p)
    (earlier : ∀ k, t ≤ k → k < u → (line k).head? ≠ some p) :
    u = t + front.length ∧
      ∀ j < front.length, (line (t + j)).head? = front[j]? := by
  have heads : ∀ j < front.length, t + j ≤ u →
      (line (t + j)).head? = front[j]? := by
    intro j inFront notLater
    obtain ⟨joined, moved⟩ := line_moves_up (j := j) starts
      (fun k after before => turns k after (by omega)) (Nat.le_of_lt inFront)
    rw [moved, List.drop_eq_getElem_cons inFront, List.cons_append,
      List.head?_cons, List.getElem?_eq_getElem inFront]
  have late : t + front.length ≤ u := by
    by_contra early
    have inFront : u - t < front.length := by omega
    have same : t + (u - t) = u := by omega
    have head := heads (u - t) inFront (Nat.le_of_eq same)
    rw [same, turn] at head
    exact once (List.mem_of_getElem? head.symm)
  obtain ⟨joined, moved⟩ := line_moves_up (j := front.length) starts
    (fun k after before => turns k after (by omega)) (Nat.le_refl _)
  rw [List.drop_length, List.nil_append] at moved
  have exact : u = t + front.length := by
    by_contra differ
    exact earlier (t + front.length) (by omega) (by omega) (by rw [moved]; rfl)
  exact ⟨exact, fun j inFront => heads j inFront (by omega)⟩

end Turns

/-! ### Families of queues -/

variable {ι α : Type} [Fintype ι] [DecidableEq α]

/-- Two sums whose summands differ at one index only. -/
theorem sum_exchange [DecidableEq ι] (f g : ι → Nat) (i : ι)
    (same : ∀ j, j ≠ i → f j = g j) : ∑ j, f j + g i = ∑ j, g j + f i := by
  have rest : ∑ j ∈ Finset.univ.erase i, f j = ∑ j ∈ Finset.univ.erase i, g j :=
    Finset.sum_congr rfl fun j member => same j (Finset.ne_of_mem_erase member)
  have splitF := Finset.add_sum_erase Finset.univ f (Finset.mem_univ i)
  have splitG := Finset.add_sum_erase Finset.univ g (Finset.mem_univ i)
  omega

/-- Number of occurrences of `a` in all queues of the family together. -/
def occurrences (queues : ι → List α) (a : α) : Nat :=
  ∑ i, (queues i).count a

section Update

variable [DecidableEq ι]

/-- Replacing one queue exchanges its occurrences. -/
theorem occurrences_update (queues : ι → List α) (i : ι) (queue : List α)
    (a : α) :
    occurrences (Function.update queues i queue) a + (queues i).count a =
      occurrences queues a + queue.count a := by
  have exchanged := sum_exchange
    (fun j => (Function.update queues i queue j).count a)
    (fun j => (queues j).count a) i (fun j other => by
      rw [Function.update_of_ne other])
  rwa [Function.update_self] at exchanged

theorem occurrences_append (queues : ι → List α) (i : ι) (b a : α) :
    occurrences (Function.update queues i (queues i ++ [b])) a =
      occurrences queues a + if a = b then 1 else 0 := by
  have updated := occurrences_update queues i (queues i ++ [b]) a
  have counted :
      (queues i ++ [b]).count a =
        (queues i).count a + if a = b then 1 else 0 := by
    rw [List.count_append, List.count_singleton]
    by_cases same : a = b
    · subst same; simp
    · simp [same, Ne.symm same]
  omega

theorem occurrences_erase (queues : ι → List α) (i : ι) {b : α}
    (member : b ∈ queues i) (a : α) :
    occurrences (Function.update queues i ((queues i).erase b)) a +
        (if a = b then 1 else 0) = occurrences queues a := by
  have updated := occurrences_update queues i ((queues i).erase b) a
  by_cases same : a = b
  · subst same
    have positive := List.count_pos_iff.mpr member
    rw [List.count_erase_self] at updated
    simp only [if_pos]
    omega
  · rw [List.count_erase_of_ne same] at updated
    simp only [if_neg same]
    omega

end Update

theorem count_le_occurrences (queues : ι → List α) (i : ι) (a : α) :
    (queues i).count a ≤ occurrences queues a :=
  Finset.single_le_sum (f := fun j => (queues j).count a)
    (fun _ _ => Nat.zero_le _) (Finset.mem_univ i)

theorem occurrences_pos {queues : ι → List α} {i : ι} {a : α}
    (member : a ∈ queues i) : 0 < occurrences queues a :=
  Nat.lt_of_lt_of_le (List.count_pos_iff.mpr member)
    (count_le_occurrences queues i a)

theorem occurrences_eq_zero {queues : ι → List α} {a : α} :
    occurrences queues a = 0 ↔ ∀ i, a ∉ queues i := by
  simp [occurrences, Finset.sum_eq_zero_iff, List.count_eq_zero]

/-- An element that occurs once in all queues together is in exactly one. -/
theorem existsUnique_of_occurrences {queues : ι → List α} {a : α}
    (once : occurrences queues a = 1) : ∃! i, a ∈ queues i := by
  have somewhere : ∃ i, a ∈ queues i := by
    by_contra nowhere
    have zero := occurrences_eq_zero.mpr (not_exists.mp nowhere)
    omega
  obtain ⟨i, member⟩ := somewhere
  refine ⟨i, member, fun j memberJ => ?_⟩
  by_contra differ
  classical
  have pair :
      (queues j).count a + (queues i).count a ≤ occurrences queues a := by
    rw [occurrences,
      ← Finset.sum_pair (f := fun k => (queues k).count a) differ]
    exact Finset.sum_le_sum_of_subset (Finset.subset_univ _)
  have positiveI := List.count_pos_iff.mpr member
  have positiveJ := List.count_pos_iff.mpr memberJ
  omega

/-! ### The first of the best -/

/-- The queue splits into `front`, `best` and `back`, where the key of `best` is
above those in front of it and not below those behind. -/
structure FirstBest {α : Type} (key : α → Nat) (queue front : List α) (best : α)
    (back : List α) : Prop where
  queueEq : queue = front ++ best :: back
  worse : ∀ a ∈ front, key a < key best
  noBetter : ∀ a ∈ back, key a ≤ key best

section Best

variable {α β : Type} {key : α → Nat} {queue front front' back back' : List α}
  {best best' : α}

theorem FirstBest.le (first : FirstBest key queue front best back) {a : α}
    (isMember : a ∈ queue) : key a ≤ key best := by
  rw [first.queueEq, List.mem_append, List.mem_cons] at isMember
  rcases isMember with isFront | rfl | isBack
  · exact Nat.le_of_lt (first.worse a isFront)
  · exact Nat.le_refl _
  · exact first.noBetter a isBack

theorem exists_firstBest (key : α → Nat) (nonempty : queue ≠ []) :
    ∃ front best back, FirstBest key queue front best back := by
  induction queue with
  | nil => exact absurd rfl nonempty
  | cons a queue inductionHypothesis =>
      cases queue with
      | nil => exact ⟨[], a, [], rfl, by simp, by simp⟩
      | cons b queue =>
          obtain ⟨front, best, back, first⟩ :=
            inductionHypothesis (List.cons_ne_nil b queue)
          by_cases above : key a < key best
          · refine ⟨a :: front, best, back, by rw [first.queueEq]; rfl, ?_,
              first.noBetter⟩
            intro c member
            rcases List.mem_cons.mp member with rfl | isFront
            · exact above
            · exact first.worse c isFront
          · refine ⟨[], a, b :: queue, rfl, by simp, fun c member => ?_⟩
            exact Nat.le_trans (first.le member) (Nat.not_lt.mp above)

/-- There is only one first of the best. -/
theorem FirstBest.unique (first : FirstBest key queue front best back)
    (second : FirstBest key queue front' best' back') :
    front = front' ∧ best = best' ∧ back = back' := by
  obtain ⟨queueEq, worse, noBetter⟩ := first
  obtain ⟨queueEq', worse', noBetter'⟩ := second
  subst queueEq
  induction front generalizing front' with
  | nil =>
      cases front' with
      | nil =>
          obtain ⟨rfl, rfl⟩ := List.cons.inj queueEq'
          exact ⟨rfl, rfl, rfl⟩
      | cons a front' =>
          obtain ⟨rfl, rfl⟩ := List.cons.inj queueEq'
          have above := worse' best List.mem_cons_self
          have below := noBetter best' (by simp)
          omega
  | cons b front inductionHypothesis =>
      cases front' with
      | nil =>
          obtain ⟨rfl, rest⟩ := List.cons.inj queueEq'
          have above := worse b List.mem_cons_self
          have below := noBetter' best (by simp [← rest])
          omega
      | cons a front' =>
          obtain ⟨rfl, rest⟩ := List.cons.inj queueEq'
          obtain ⟨rfl, same⟩ := inductionHypothesis
            (fun c member => worse c (List.mem_cons_of_mem b member))
            (fun c member => worse' c (List.mem_cons_of_mem b member)) rest
          exact ⟨rfl, same⟩

/-- Seen from those at or above a bar, the first of the best is the same one, or
nobody is at or above the bar. -/
theorem FirstBest.restrict {place : β → α} {bar : Nat} {few : List β}
    (mirrors : few.map place = queue.filter fun a => bar ≤ key a)
    (first : FirstBest key queue front best back) :
    few = [] ∧ key best < bar ∨
      ∃ fewFront fewBest fewBack, place fewBest = best ∧
        FirstBest (fun b => key (place b)) few fewFront fewBest fewBack ∧
        fewFront.map place = front.filter (fun a => bar ≤ key a) ∧
        fewBack.map place = back.filter fun a => bar ≤ key a := by
  by_cases above : bar ≤ key best
  · rw [first.queueEq, List.filter_append,
      List.filter_cons_of_pos (by simpa using above)] at mirrors
    obtain ⟨fewFront, rest, rfl, frontEq, restEq⟩ :=
      List.map_eq_append_iff.mp mirrors
    obtain ⟨fewBest, fewBack, rfl, rfl, backEq⟩ := List.map_eq_cons_iff.mp restEq
    refine Or.inr ⟨fewFront, fewBest, fewBack, rfl, ⟨rfl, ?_, ?_⟩, frontEq, backEq⟩
    · intro b member
      have isFront := List.mem_map_of_mem (f := place) member
      rw [frontEq] at isFront
      exact first.worse _ (List.mem_filter.mp isFront).1
    · intro b member
      have isBack := List.mem_map_of_mem (f := place) member
      rw [backEq] at isBack
      exact first.noBetter _ (List.mem_filter.mp isBack).1
  · refine Or.inl ⟨List.map_eq_nil_iff.mp (mirrors.trans ?_), Nat.not_le.mp above⟩
    rw [List.filter_eq_nil_iff]
    intro a member
    have below := first.le member
    simp only [decide_eq_true_eq]
    omega

end Best

end OsPAs.Lib
