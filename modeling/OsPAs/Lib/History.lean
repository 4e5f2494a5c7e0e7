/-
Module: OsPAs.Lib.History
Purpose: Order of service in a history: who opened a request before another
  party asked at all is served before that party.
Trusted boundary: none
Main exports: Pending, InTurn, InTurn.snoc, Pending.of_snoc, InTurn.append
-/
import Mathlib.Data.List.Basic
import Mathlib.Tactic.Common

namespace OsPAs.Lib

variable {α : Type} {opens asks serves grants : α → Prop} {log lines : List α}
  {line : α}

/-- A request was opened before the other party asked for anything, and has not
been served since. -/
def Pending (opens asks serves : α → Prop) (log : List α) : Prop :=
  ∃ before x after, log = before ++ x :: after ∧ opens x ∧
    (∀ y ∈ before, ¬ asks y) ∧ ∀ y ∈ after, ¬ serves y

/-- Wherever the other party is granted something after a request that was
opened before it asked for anything, that request was served in between. -/
def InTurn (opens asks serves grants : α → Prop) (log : List α) : Prop :=
  ∀ before x middle y after, log = before ++ x :: (middle ++ y :: after) →
    opens x → (∀ z ∈ before, ¬ asks z) → grants y → ∃ z ∈ middle, serves z

theorem pending_nil : ¬ Pending opens asks serves [] := by
  rintro ⟨before, x, after, eq, _⟩
  simp at eq

theorem inTurn_nil : InTurn opens asks serves grants [] := by
  intro before x middle y after eq
  simp at eq

/-- A list that ends in `line`, split in front of an element: either that is the
end, or the split was there before. -/
theorem split_snoc {before after : List α} {x : α}
    (eq : log ++ [line] = before ++ x :: after) :
    after = [] ∧ x = line ∧ before = log ∨
      ∃ rest, after = rest ++ [line] ∧ log = before ++ x :: rest := by
  rcases List.eq_nil_or_concat after with rfl | ⟨rest, last, rfl⟩
  · obtain ⟨same, ends⟩ := List.append_inj' eq rfl
    exact Or.inl ⟨rfl, (List.cons.inj ends).1.symm, same.symm⟩
  · rw [List.concat_eq_append, ← List.cons_append, ← List.append_assoc] at eq
    obtain ⟨same, ends⟩ := List.append_inj' eq rfl
    obtain rfl := (List.cons.inj ends).1
    exact Or.inr ⟨rest, List.concat_eq_append, same⟩

/-- What is pending after one more line was pending before it, or is opened by
it. -/
theorem Pending.of_snoc (pending : Pending opens asks serves (log ++ [line])) :
    Pending opens asks serves log ∧ ¬ serves line ∨
      opens line ∧ ∀ y ∈ log, ¬ asks y := by
  obtain ⟨before, x, after, eq, opened, first, unserved⟩ := pending
  rcases split_snoc eq with ⟨_, rfl, rfl⟩ | ⟨rest, rfl, rfl⟩
  · exact Or.inr ⟨opened, first⟩
  · refine Or.inl ⟨⟨before, x, rest, rfl, opened, first, fun y member => ?_⟩, ?_⟩
    · exact unserved y (List.mem_append_left _ member)
    · exact unserved line (by simp)

/-- One more line keeps the order, unless it grants something while a request is
pending. -/
theorem InTurn.snoc (inTurn : InTurn opens asks serves grants log)
    (waits : grants line → ¬ Pending opens asks serves log) :
    InTurn opens asks serves grants (log ++ [line]) := by
  intro before x middle y after eq opened first granted
  rw [← List.cons_append, ← List.append_assoc] at eq
  rcases split_snoc eq with ⟨_, rfl, rfl⟩ | ⟨rest, _, rfl⟩
  · by_contra unserved
    apply waits granted
    refine ⟨before, x, middle, rfl, opened, first, fun z member served => ?_⟩
    exact unserved ⟨z, member, served⟩
  · exact inTurn before x middle y rest (by simp) opened first granted

/-- Lines that open and grant nothing leave the order as it is. -/
theorem InTurn.append (inTurn : InTurn opens asks serves grants log)
    (silent : ∀ line ∈ lines, ¬ grants line) :
    InTurn opens asks serves grants (log ++ lines) := by
  induction lines generalizing log with
  | nil => simpa using inTurn
  | cons line rest inductionHypothesis =>
      rw [List.append_cons]
      apply inductionHypothesis
      · apply inTurn.snoc
        exact fun granted => absurd granted (silent line List.mem_cons_self)
      · exact fun other member => silent other (List.mem_cons_of_mem _ member)

theorem Pending.of_append
    (silent : ∀ line ∈ lines, ¬ opens line)
    (pending : Pending opens asks serves (log ++ lines)) :
    Pending opens asks serves log := by
  induction lines generalizing log with
  | nil => simpa using pending
  | cons line rest inductionHypothesis =>
      rw [List.append_cons] at pending
      have earlier := inductionHypothesis
        (fun other member => silent other (List.mem_cons_of_mem _ member)) pending
      rcases earlier.of_snoc with ⟨before, _⟩ | ⟨opened, _⟩
      · exact before
      · exact absurd opened (silent line List.mem_cons_self)

end OsPAs.Lib
