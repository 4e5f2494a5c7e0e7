/-
Module: OsPAs.Lib.Lines
Purpose: Texts of lines that a terminator ends: reading them one after the other
  into a buffer of fixed size, and telling the lines from the text.
Trusted boundary: none
Main exports: getLine, getLines, terminated, getLines_terminated,
  terminated_injective
-/
import Mathlib.Data.List.TakeWhile
import Mathlib.Tactic.Common

namespace OsPAs.Lib

variable {α : Type}

/-- The text of lines that are all terminated. -/
def terminated (stop : α) (lines : List (List α)) : List α :=
  (lines.map fun line => line ++ [stop]).flatten

theorem terminated_cons (stop : α) (line : List α) (lines : List (List α)) :
    terminated stop (line :: lines) = line ++ stop :: terminated stop lines := by
  simp [terminated]

variable [DecidableEq α] {size : Nat} {stop : α} {line last : List α}
  {lines : List (List α)}

/-- The next line of what is left of a text, with its terminator, cut off where
the buffer is full but for one place; and what is left behind it. -/
def getLine (size : Nat) (stop : α) (text : List α) : List α × List α :=
  text.splitAt (min (size - 1) ((text.takeWhile fun ch => ch ≠ stop).length + 1))

/-- All lines up to the end of the text, in at most `fuel` calls. -/
def getLines (size : Nat) (stop : α) : Nat → List α → List (List α)
  | 0, _ => []
  | fuel + 1, text =>
      if text = [] then []
      else (getLine size stop text).1 ::
        getLines size stop fuel (getLine size stop text).2

theorem takeWhile_line (clean : stop ∉ line) (rest : List α) :
    (line ++ rest).takeWhile (fun ch => ch ≠ stop) =
      line ++ rest.takeWhile fun ch => ch ≠ stop := by
  refine List.takeWhile_append_of_pos fun ch member => ?_
  have other : ch ≠ stop := by
    rintro rfl
    exact clean member
  simpa using other

/-! ### Reading -/

/-- A line that fits into the buffer is read with its terminator. -/
theorem getLine_terminated (short : line.length + 1 < size)
    (clean : stop ∉ line) (rest : List α) :
    getLine size stop (line ++ stop :: rest) = (line ++ [stop], rest) := by
  have upTo : min (size - 1) (line.length + 1) = (line ++ [stop]).length := by
    rw [List.length_append, List.length_singleton]
    omega
  have stops : (stop :: rest).takeWhile (fun ch => ch ≠ stop) = [] := by simp
  rw [getLine, takeWhile_line clean, stops, List.append_nil, upTo,
    List.splitAt_eq, List.append_cons line stop rest, List.take_left,
    List.drop_left]

/-- The last line ends with the text. -/
theorem getLine_last (short : line.length + 1 < size) (clean : stop ∉ line) :
    getLine size stop line = (line, []) := by
  have all : line.takeWhile (fun ch => ch ≠ stop) = line := by
    simpa using takeWhile_line clean []
  have upTo : min (size - 1) (line.length + 1) = line.length + 1 := by omega
  rw [getLine, all, upTo, List.splitAt_eq, List.take_of_length_le (Nat.le_succ _),
    List.drop_of_length_le (Nat.le_succ _)]

/-- Lines that fit into the buffer are read one after the other; the last one,
which nothing terminates, only if it is not empty. -/
theorem getLines_terminated {fuel : Nat}
    (short : ∀ line ∈ last :: lines, line.length + 1 < size)
    (clean : ∀ line ∈ last :: lines, stop ∉ line)
    (enough : (terminated stop lines ++ last).length ≤ fuel) :
    getLines size stop fuel (terminated stop lines ++ last) =
      (lines.map fun line => line ++ [stop]) ++ [last].filter (· ≠ []) := by
  induction lines generalizing fuel with
  | nil =>
      have lastShort := short last List.mem_cons_self
      have lastClean := clean last List.mem_cons_self
      change last.length ≤ fuel at enough
      change getLines size stop fuel last = [last].filter (· ≠ [])
      cases fuel with
      | zero =>
          rw [List.eq_nil_of_length_eq_zero (Nat.le_zero.mp enough)]
          rfl
      | succ fuel =>
          rw [getLines, getLine_last lastShort lastClean]
          by_cases isEmpty : last = []
          · rw [if_pos isEmpty, isEmpty]
            rfl
          · rw [if_neg isEmpty, List.filter_cons_of_pos (by simpa using isEmpty),
              List.filter_nil]
            cases fuel <;> rfl
  | cons line lines inductionHypothesis =>
      rw [terminated_cons, List.append_assoc, List.cons_append] at enough ⊢
      simp only [List.length_append, List.length_cons] at enough
      obtain ⟨fuel, rfl⟩ : ∃ more, fuel = more + 1 := ⟨fuel - 1, by omega⟩
      have inFront : line ∈ last :: line :: lines := by simp
      have behind {other : List α} (member : other ∈ last :: lines) :
          other ∈ last :: line :: lines := by
        rcases List.mem_cons.mp member with rfl | inLines
        · exact List.mem_cons_self
        · exact List.mem_cons_of_mem _ (List.mem_cons_of_mem _ inLines)
      rw [getLines, if_neg (by simp),
        getLine_terminated (short line inFront) (clean line inFront),
        inductionHypothesis (fun other member => short other (behind member))
          (fun other member => clean other (behind member))
          (by simp only [List.length_append]; omega)]
      rfl

/-! ### Telling the lines -/

/-- A text of terminated lines determines them. -/
theorem terminated_injective {others : List (List α)}
    (clean : ∀ line ∈ lines, stop ∉ line) (clean' : ∀ line ∈ others, stop ∉ line)
    (same : terminated stop lines = terminated stop others) : lines = others := by
  have firstOf {line : List α} (isClean : stop ∉ line) (rest : List α) :
      (line ++ stop :: rest).takeWhile (fun ch => ch ≠ stop) = line := by
    rw [takeWhile_line isClean]
    simp
  induction lines generalizing others with
  | nil =>
      cases others with
      | nil => rfl
      | cons other others => simp [terminated] at same
  | cons line lines inductionHypothesis =>
      cases others with
      | nil => simp [terminated] at same
      | cons other others =>
          rw [terminated_cons, terminated_cons] at same
          have sameLine : line = other := by
            have fronts := congrArg (List.takeWhile fun ch => ch ≠ stop) same
            rwa [firstOf (clean line List.mem_cons_self),
              firstOf (clean' other List.mem_cons_self)] at fronts
          subst sameLine
          have rest := (List.cons.inj (List.append_cancel_left same)).2
          rw [inductionHypothesis
            (fun line member => clean line (List.mem_cons_of_mem _ member))
            (fun line member => clean' line (List.mem_cons_of_mem _ member)) rest]

end OsPAs.Lib
