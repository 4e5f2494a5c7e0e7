/-
Module: OsPAs.Lib.Cells
Purpose: Arrays of a fixed number of pointers: a list that is stored into such
  an array from an index on, which faults behind its end, and the list that an
  array holds.
Trusted boundary: none
Main exports: storeFrom, stored, storeFrom_eq, listed, listed_getElem?
-/
import Mathlib.Data.List.Basic
import Mathlib.Data.List.FinRange
import Mathlib.Logic.Function.Basic

namespace OsPAs.Lib

variable {ε α : Type} {n : Nat} {fault : ε} {cells : Fin n → Option α} {k : Nat}

/-- Stores the elements into the cells from `k` on. -/
def storeFrom (fault : ε) (cells : Fin n → Option α) (k : Nat) :
    List α → Except ε (Fin n → Option α)
  | [] => .ok cells
  | a :: rest =>
      if inside : k < n then
        storeFrom fault (Function.update cells ⟨k, inside⟩ (some a)) (k + 1) rest
      else .error fault

/-- The cells with the elements in them from `k` on. -/
def stored (cells : Fin n → Option α) (k : Nat) (elements : List α) :
    Fin n → Option α := fun j =>
  if k ≤ j.val ∧ j.val < k + elements.length then elements[j.val - k]?
  else cells j

theorem stored_nil : stored cells k [] = cells := by
  funext j
  rw [stored, if_neg (by simp)]

theorem stored_cons (inside : k < n) (a : α) (rest : List α) :
    stored (Function.update cells ⟨k, inside⟩ (some a)) (k + 1) rest =
      stored cells k (a :: rest) := by
  funext j
  rw [stored, stored, Function.update_apply, List.length_cons]
  by_cases here : j.val = k
  · rw [if_neg (by omega), if_pos (Fin.ext here), if_pos (by omega)]
    simp [here]
  · rw [if_neg fun same => here (congrArg Fin.val same)]
    by_cases later : k + 1 ≤ j.val ∧ j.val < k + 1 + rest.length
    · have next : j.val - k = j.val - (k + 1) + 1 := by omega
      rw [if_pos later, if_pos (by omega), next, List.getElem?_cons_succ]
    · rw [if_neg later, if_neg (by omega)]

/-- The elements are stored if they fit. -/
theorem storeFrom_eq (elements : List α) (inside : k ≤ n) :
    storeFrom fault cells k elements =
      if k + elements.length ≤ n then .ok (stored cells k elements)
      else .error fault := by
  induction elements generalizing cells k with
  | nil => rw [storeFrom, stored_nil, if_pos (by simpa using inside)]
  | cons a rest inductionHypothesis =>
      rw [storeFrom, List.length_cons]
      split
      · rename_i room
        have number : k + 1 + rest.length = k + (rest.length + 1) := by omega
        rw [inductionHypothesis room, stored_cons room, number]
      · rename_i full
        rw [if_neg (by omega)]

/-- What the cells point to, without the NULLs. -/
def listed (cells : Fin n → Option α) : List α :=
  (List.finRange n).filterMap cells

/-- Cells that hold a list and NULLs behind it. -/
theorem listed_getElem? {elements : List α} (fits : elements.length ≤ n) :
    listed (fun k : Fin n => elements[k.val]?) = elements := by
  induction elements generalizing n with
  | nil => simp [listed]
  | cons a rest inductionHypothesis =>
      cases n with
      | zero => simp at fits
      | succ n =>
          have later := @inductionHypothesis n (by simpa using fits)
          rw [listed, List.finRange_succ, List.filterMap_cons, List.filterMap_map]
          exact congrArg (a :: ·) later

end OsPAs.Lib
