/-
Module: OsPAs.Lib.Scan
Purpose: The linear scan that keeps the best element seen so far and replaces
  it only by a strictly better one, also with a numeric bound to start from.
Trusted boundary: none
Main exports: scan, scan_mem, not_better_scan, scan_split, scanBelow,
  scanBelow_none, scanBelow_some, scanBelow_eq_scan
-/
import Mathlib.Tactic.Common

namespace OsPAs.Lib

variable {α : Type}

/-- `best = first; for (pos in list) if (better(pos, best)) best = pos;` -/
def scan (better : α → α → Prop) [DecidableRel better] (first : α)
    (list : List α) : α :=
  list.foldl (fun best pos => if better pos best then pos else best) first

variable (better : α → α → Prop) [DecidableRel better]

@[simp] theorem scan_nil (first : α) : scan better first [] = first := rfl

@[simp] theorem scan_cons (first pos : α) (list : List α) :
    scan better first (pos :: list) =
      scan better (if better pos first then pos else first) list := rfl

/-- The scan returns its start value or an element of the list. -/
theorem scan_eq_or_mem (first : α) (list : List α) :
    scan better first list = first ∨ scan better first list ∈ list := by
  induction list generalizing first with
  | nil => exact Or.inl rfl
  | cons pos list inductionHypothesis =>
      rw [scan_cons]
      by_cases isBetter : better pos first
      · rw [if_pos isBetter]
        rcases inductionHypothesis pos with eq | mem
        · exact Or.inr (by rw [eq]; exact List.mem_cons_self)
        · exact Or.inr (List.mem_cons_of_mem pos mem)
      · rw [if_neg isBetter]
        rcases inductionHypothesis first with eq | mem
        · exact Or.inl eq
        · exact Or.inr (List.mem_cons_of_mem pos mem)

/-- Started at the head of a list, the scan returns one of its elements. -/
theorem scan_mem (first : α) (rest : List α) :
    scan better first (first :: rest) ∈ first :: rest := by
  rcases scan_eq_or_mem better first (first :: rest) with eq | mem
  · rw [eq]; exact List.mem_cons_self
  · exact mem

/-- The scan stays at its start value if nothing in the list is better. -/
theorem scan_eq_first {first : α} {list : List α}
    (noBetter : ∀ pos ∈ list, ¬ better pos first) :
    scan better first list = first := by
  induction list with
  | nil => rfl
  | cons pos list inductionHypothesis =>
      rw [scan_cons, if_neg (noBetter pos List.mem_cons_self)]
      exact inductionHypothesis fun other member =>
        noBetter other (List.mem_cons_of_mem pos member)

/-- For a strict weak order (asymmetric, with a transitive complement) nothing
in the list, nor the start value, is better than what the scan returns. -/
theorem not_better_scan (asymm : ∀ a b, better a b → ¬ better b a)
    (negTrans : ∀ a b c, ¬ better a b → ¬ better b c → ¬ better a c)
    (first : α) (list : List α) {pos : α} (choice : pos = first ∨ pos ∈ list) :
    ¬ better pos (scan better first list) := by
  induction list generalizing first pos with
  | nil =>
      obtain rfl : pos = first := by simpa using choice
      exact fun self => asymm pos pos self self
  | cons head list inductionHypothesis =>
      rw [scan_cons]
      by_cases isBetter : better head first
      · rw [if_pos isBetter]
        rcases choice with rfl | mem
        · -- the start value lost against `head`
          exact negTrans _ _ _ (asymm _ _ isBetter)
            (inductionHypothesis head (Or.inl rfl))
        · exact inductionHypothesis head (by simpa using mem)
      · rw [if_neg isBetter]
        rcases choice with rfl | mem
        · exact inductionHypothesis pos (Or.inl rfl)
        · rcases List.mem_cons.mp mem with rfl | mem
          · -- `head` did not beat the start value
            exact negTrans _ _ _ isBetter
              (inductionHypothesis first (Or.inl rfl))
          · exact inductionHypothesis first (Or.inr mem)

/-- Where the best element is found: nothing in the list is better than the
start value, or everything before the best element is worse than it and nothing
behind it is better. -/
theorem scan_cases (asymm : ∀ a b, better a b → ¬ better b a)
    (negTrans : ∀ a b c, ¬ better a b → ¬ better b c → ¬ better a c)
    (first : α) (list : List α) :
    (scan better first list = first ∧ ∀ pos ∈ list, ¬ better pos first) ∨
      ∃ front back, list = front ++ scan better first list :: back ∧
        better (scan better first list) first ∧
        (∀ pos ∈ front, better (scan better first list) pos) ∧
        ∀ pos ∈ back, ¬ better pos (scan better first list) := by
  induction list generalizing first with
  | nil => exact Or.inl ⟨rfl, by simp⟩
  | cons head list inductionHypothesis =>
      rw [scan_cons]
      by_cases isBetter : better head first
      · rw [if_pos isBetter]
        rcases inductionHypothesis head with
          ⟨eq, nothing⟩ | ⟨front, back, split, beats, worse, noBetter⟩
        · rw [eq]
          exact Or.inr ⟨[], list, rfl, isBetter, by simp, nothing⟩
        · refine Or.inr ⟨head :: front, back, by rw [List.cons_append, ← split],
            ?_, ?_, noBetter⟩
          · by_contra notBetter
            exact negTrans _ _ _ notBetter (asymm _ _ isBetter) beats
          · simpa using ⟨beats, worse⟩
      · rw [if_neg isBetter]
        rcases inductionHypothesis first with
          ⟨eq, nothing⟩ | ⟨front, back, split, beats, worse, noBetter⟩
        · rw [eq]
          exact Or.inl ⟨rfl, by simpa using ⟨isBetter, nothing⟩⟩
        · refine Or.inr ⟨head :: front, back, by rw [List.cons_append, ← split],
            beats, ?_, noBetter⟩
          have beatsHead : better (scan better first list) head := by
            by_contra notBetter
            exact negTrans _ _ _ notBetter isBetter beats
          simpa using ⟨beatsHead, worse⟩

/-- Started at the head of a list, the scan finds the first of its best
elements. -/
theorem scan_split (asymm : ∀ a b, better a b → ¬ better b a)
    (negTrans : ∀ a b c, ¬ better a b → ¬ better b c → ¬ better a c)
    (first : α) (rest : List α) :
    ∃ front back,
      first :: rest = front ++ scan better first (first :: rest) :: back ∧
      (∀ pos ∈ front, better (scan better first (first :: rest)) pos) ∧
      ∀ pos ∈ back, ¬ better pos (scan better first (first :: rest)) := by
  rw [scan_cons, ite_self]
  rcases scan_cases better asymm negTrans first rest with
    ⟨eq, nothing⟩ | ⟨front, back, split, beats, worse, noBetter⟩
  · rw [eq]
    exact ⟨[], rest, rfl, by simp, nothing⟩
  · exact ⟨first :: front, back, by rw [List.cons_append, ← split],
      by simpa using ⟨beats, worse⟩, noBetter⟩

/-- `for (pos in list) if (key(pos) < bound) { best = pos; bound = key(pos); }`,
from `best = NULL`. -/
def scanBelow (key : α → Nat) (bound : Nat) (list : List α) : Option α × Nat :=
  list.foldl
    (fun best pos => if key pos < best.2 then (some pos, key pos) else best)
    (none, bound)

/-- Started at any best-so-far, the scan keeps it if nothing in the list is
below the bound, and otherwise returns a least element of the list. -/
theorem foldl_scanBelow (key : α → Nat) (best : Option α) (bound : Nat)
    (list : List α) :
    let result := list.foldl
      (fun best pos => if key pos < best.2 then (some pos, key pos) else best)
      (best, bound)
    (result = (best, bound) ∧ ∀ pos ∈ list, bound ≤ key pos) ∨
      ∃ least ∈ list, result = (some least, key least) ∧ key least < bound ∧
        ∀ pos ∈ list, key least ≤ key pos := by
  induction list generalizing best bound with
  | nil => exact Or.inl ⟨rfl, by simp⟩
  | cons head list inductionHypothesis =>
      rw [List.foldl_cons]
      by_cases below : key head < bound
      · rw [if_pos below]
        rcases inductionHypothesis (some head) (key head) with
          ⟨kept, above⟩ | ⟨least, mem, found, lt, minimal⟩
        · exact Or.inr ⟨head, List.mem_cons_self, kept, below,
            by simpa using above⟩
        · refine Or.inr ⟨least, List.mem_cons_of_mem head mem, found,
            Nat.lt_trans lt below, ?_⟩
          simpa using ⟨Nat.le_of_lt lt, minimal⟩
      · rw [if_neg below]
        have notBelow : bound ≤ key head := Nat.le_of_not_lt below
        rcases inductionHypothesis best bound with
          ⟨kept, above⟩ | ⟨least, mem, found, lt, minimal⟩
        · exact Or.inl ⟨kept, by simpa using ⟨notBelow, above⟩⟩
        · refine Or.inr ⟨least, List.mem_cons_of_mem head mem, found, lt, ?_⟩
          simpa using ⟨Nat.le_of_lt (Nat.lt_of_lt_of_le lt notBelow), minimal⟩

/-- Nothing found: everything in the list is at or above the bound. -/
theorem scanBelow_none {key : α → Nat} {bound : Nat} {list : List α}
    (nothing : (scanBelow key bound list).1 = none) :
    ∀ pos ∈ list, bound ≤ key pos := by
  rcases foldl_scanBelow key none bound list with
    ⟨_, above⟩ | ⟨least, _, found, _⟩
  · exact above
  · rw [scanBelow, found] at nothing
    simp at nothing

/-- Something found: it is a least element of the list and below the bound. -/
theorem scanBelow_some {key : α → Nat} {bound : Nat} {list : List α}
    {least : α} (something : (scanBelow key bound list).1 = some least) :
    least ∈ list ∧ key least < bound ∧ ∀ pos ∈ list, key least ≤ key pos := by
  rcases foldl_scanBelow key none bound list with
    ⟨kept, _⟩ | ⟨other, mem, found, lt, minimal⟩
  · rw [scanBelow, kept] at something
    simp at something
  · rw [scanBelow, found] at something
    obtain rfl : other = least := Option.some.inj something
    exact ⟨mem, lt, minimal⟩

/-- From a bound above the head of the list it is the scan for a least element. -/
theorem scanBelow_eq_scan (key : α → Nat) {bound : Nat} {first : α}
    {rest : List α} (below : key first < bound)
    (same : ∀ pos ∈ first :: rest, ∀ best ∈ first :: rest,
      better pos best ↔ key pos < key best) :
    (scanBelow key bound (first :: rest)).1 =
      some (scan better first (first :: rest)) := by
  have fromBest (list : List α) (best : α)
      (within : ∀ pos ∈ best :: list, pos ∈ first :: rest) :
      list.foldl
        (fun best pos => if key pos < best.2 then (some pos, key pos) else best)
        (some best, key best) =
          (some (scan better best list), key (scan better best list)) := by
    induction list generalizing best with
    | nil => rfl
    | cons pos list inductionHypothesis =>
        have isBest := within best List.mem_cons_self
        have isPos := within pos (by simp)
        rw [List.foldl_cons, scan_cons]
        by_cases isBetter : better pos best
        · rw [if_pos ((same pos isPos best isBest).mp isBetter), if_pos isBetter]
          exact inductionHypothesis pos fun other member =>
            within other (List.mem_cons_of_mem best member)
        · rw [if_neg fun less => isBetter ((same pos isPos best isBest).mpr less),
            if_neg isBetter]
          refine inductionHypothesis best fun other member => within other ?_
          rcases List.mem_cons.mp member with rfl | member
          · exact List.mem_cons_self
          · exact List.mem_cons_of_mem _ (List.mem_cons_of_mem _ member)
  rw [scanBelow, List.foldl_cons, if_pos below, fromBest rest first
    fun pos member => member, scan_cons, ite_self]

end OsPAs.Lib
