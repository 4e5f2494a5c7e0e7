/-
Module: OsPAs.Lib.Aging
Purpose: Aging bounds keys.  A queue whose keys all grow by one while its best
  element leaves, and which newcomers join with small keys, never has many
  large keys.
Trusted boundary: none
Main exports: Sparse, Sparse.append, Sparse.aged, Sparse.lt
-/
import Mathlib.Tactic.Common

namespace OsPAs.Lib

variable {α : Type}

/-- Above `ceiling` the keys get rare: at most `number - j` elements of the
queue have a key of `ceiling + j` or more. -/
def Sparse (ceiling number : Nat) (key : α → Nat) (queue : List α) : Prop :=
  ∀ j, 1 ≤ j → queue.countP (fun a => ceiling + j ≤ key a) ≤ number - j

section Rules

variable {ceiling number : Nat} {key older : α → Nat} {queue newcomers : List α}

/-- Nobody is above the ceiling. -/
theorem countP_of_low (low : ∀ a ∈ queue, key a ≤ ceiling) {j : Nat}
    (positive : 1 ≤ j) : queue.countP (fun a => ceiling + j ≤ key a) = 0 := by
  apply List.countP_eq_zero.mpr
  intro a member above
  have small := low a member
  have large := of_decide_eq_true above
  omega

theorem sparse_of_low (low : ∀ a ∈ queue, key a ≤ ceiling) :
    Sparse ceiling number key queue := by
  intro j positive
  rw [countP_of_low low positive]
  exact Nat.zero_le _

theorem Sparse.congr (sparse : Sparse ceiling number key queue)
    (same : ∀ a ∈ queue, older a = key a) :
    Sparse ceiling number older queue := by
  intro j positive
  rw [List.countP_congr fun a member => by rw [same a member]]
  exact sparse j positive

/-- Newcomers are below the ceiling. -/
theorem Sparse.append (sparse : Sparse ceiling number key queue)
    (low : ∀ a ∈ newcomers, key a ≤ ceiling) :
    Sparse ceiling number key (queue ++ newcomers) := by
  intro j positive
  rw [List.countP_append, countP_of_low low positive]
  exact sparse j positive

/-- Everybody in the queue grows older and its best element leaves. -/
theorem Sparse.aged {front back : List α} {best : α}
    (sparse : Sparse ceiling number key queue)
    (short : queue.length ≤ number)
    (queueEq : queue = front ++ best :: back)
    (grows : ∀ a ∈ queue, older a = key a + 1)
    (noBetter : ∀ a ∈ queue, older a ≤ older best) :
    Sparse ceiling number older (front ++ back) := by
  intro j positive
  -- before the best one leaves, everybody counted has been counted a level below
  have before : queue.countP (fun a => ceiling + j ≤ older a) ≤
      number - (j - 1) := by
    rcases Nat.eq_or_lt_of_le positive with rfl | further
    · exact Nat.le_trans List.countP_le_length short
    · have below := sparse (j - 1) (Nat.le_sub_one_of_lt further)
      rwa [List.countP_congr (q := fun a => ceiling + (j - 1) ≤ key a)
        fun a member => by
          rw [grows a member, decide_eq_true_eq, decide_eq_true_eq]
          omega]
  by_cases large : ceiling + j ≤ older best
  · have counted : queue.countP (fun a => ceiling + j ≤ older a) =
        (front ++ back).countP (fun a => ceiling + j ≤ older a) + 1 := by
      rw [queueEq, List.countP_append, List.countP_append,
        List.countP_cons_of_pos (by simpa using large)]
      rfl
    omega
  · have nobody : (front ++ back).countP (fun a => ceiling + j ≤ older a) = 0 := by
      apply List.countP_eq_zero.mpr
      intro a member above
      have isMember : a ∈ queue := by
        rw [queueEq]
        rcases List.mem_append.mp member with inFront | inBack
        · exact List.mem_append_left _ inFront
        · exact List.mem_append_right _ (List.mem_cons_of_mem best inBack)
      exact large (Nat.le_trans (of_decide_eq_true above)
        (noBetter a isMember))
    rw [nobody]
    exact Nat.zero_le _

/-- No key is `number` above the ceiling. -/
theorem Sparse.lt (sparse : Sparse ceiling number key queue)
    (positive : 1 ≤ number) {a : α} (member : a ∈ queue) :
    key a < ceiling + number := by
  by_contra notBelow
  have counted := sparse number positive
  rw [Nat.sub_self] at counted
  have nobody := List.countP_eq_zero.mp (Nat.le_zero.mp counted) a member
  exact nobody (decide_eq_true (Nat.not_lt.mp notBelow))

end Rules

end OsPAs.Lib
