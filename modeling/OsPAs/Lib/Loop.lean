/-
Module: OsPAs.Lib.Loop
Purpose: Loops of the shape `while (true) { ... break ... }` whose body can
  fault: the state after a given number of passes, and the rules that carry an
  invariant through all passes, up to the one that leaves or faults.
Trusted boundary: none
Main exports: Pass, iterate, iterate_invariant, iterate_leave, iterate_error,
  iterate_eq_or_error, iterate_congr
-/
import Mathlib.Tactic.Common

namespace OsPAs.Lib

/-- How one pass through the loop body ends: at the bottom of the body, ready
for the next pass, or at a `break`. -/
inductive Pass (σ : Type) where
  | again (state : σ)
  | leave (state : σ)
deriving Repr, DecidableEq

variable {ε σ : Type}

/-- The loop after `k` passes.  A loop that has left or faulted stays so. -/
def iterate (body : σ → Except ε (Pass σ)) (start : σ) :
    Nat → Except ε (Pass σ)
  | 0 => .ok (.again start)
  | k + 1 =>
      match iterate body start k with
      | .ok (.again state) => body state
      | .ok (.leave state) => .ok (.leave state)
      | .error fault => .error fault

variable {body : σ → Except ε (Pass σ)} {start : σ}

@[simp] theorem iterate_zero :
    iterate body start 0 = .ok (.again start) := rfl

theorem iterate_succ_of_again {k : Nat} {state : σ}
    (reached : iterate body start k = .ok (.again state)) :
    iterate body start (k + 1) = body state := by
  simp only [iterate, reached]

theorem iterate_succ_of_leave {k : Nat} {state : σ}
    (reached : iterate body start k = .ok (.leave state)) :
    iterate body start (k + 1) = .ok (.leave state) := by
  simp only [iterate, reached]

/-- A loop that has left stays so. -/
theorem iterate_leave_of_le {j k : Nat} {state : σ}
    (left : iterate body start j = .ok (.leave state)) (le : j ≤ k) :
    iterate body start k = .ok (.leave state) := by
  induction le with
  | refl => exact left
  | step _ inductionHypothesis =>
      exact iterate_succ_of_leave inductionHypothesis

/-- A pass that ends at the bottom of the body was entered from the top. -/
theorem iterate_succ_again {k : Nat} {state' : σ}
    (reached : iterate body start (k + 1) = .ok (.again state')) :
    ∃ state, iterate body start k = .ok (.again state) ∧
      body state = .ok (.again state') := by
  cases before : iterate body start k with
  | error fault => simp [iterate, before] at reached
  | ok pass =>
      cases pass with
      | again state =>
          exact ⟨state, rfl, by rw [← reached, iterate_succ_of_again before]⟩
      | leave state => simp [iterate, before] at reached

/-- A pass that is reached comes after others that were reached. -/
theorem iterate_again_of_le {j k : Nat} {state' : σ}
    (reached : iterate body start k = .ok (.again state')) (le : j ≤ k) :
    ∃ state, iterate body start j = .ok (.again state) := by
  induction k generalizing state' with
  | zero => exact ⟨start, by rw [Nat.le_zero.mp le]; rfl⟩
  | succ k inductionHypothesis =>
      rcases Nat.lt_or_eq_of_le le with earlier | rfl
      · obtain ⟨state, before, _⟩ := iterate_succ_again reached
        exact inductionHypothesis before (Nat.le_of_lt_succ earlier)
      · exact ⟨state', reached⟩

/-- Invariant rule, indexed by the number of the pass: what holds at the top
of pass `0` and is carried by one pass holds at the top of every pass. -/
theorem iterate_invariant (Inv : Nat → σ → Prop) (initially : Inv 0 start)
    (carried : ∀ k state state', iterate body start k = .ok (.again state) →
      Inv k state → body state = .ok (.again state') → Inv (k + 1) state')
    {k : Nat} {state : σ}
    (reached : iterate body start k = .ok (.again state)) : Inv k state := by
  induction k generalizing state with
  | zero =>
      obtain rfl : start = state := by simpa using reached
      exact initially
  | succ k inductionHypothesis =>
      obtain ⟨before, beforeReached, ran⟩ := iterate_succ_again reached
      exact carried k before state beforeReached
        (inductionHypothesis beforeReached) ran

/-- A loop that has left did so in some pass, which reached its top. -/
theorem iterate_leave {k : Nat} {final : σ}
    (left : iterate body start k = .ok (.leave final)) :
    ∃ j state, j < k ∧ iterate body start j = .ok (.again state) ∧
      body state = .ok (.leave final) := by
  induction k with
  | zero => simp at left
  | succ k inductionHypothesis =>
      cases before : iterate body start k with
      | error fault => simp [iterate, before] at left
      | ok pass =>
          cases pass with
          | again state =>
              exact ⟨k, state, Nat.lt_succ_self k, before,
                by rw [← left, iterate_succ_of_again before]⟩
          | leave state =>
              obtain rfl : state = final := by simpa [iterate, before] using left
              obtain ⟨j, top, lt, topReached, ran⟩ := inductionHypothesis before
              exact ⟨j, top, Nat.lt_succ_of_lt lt, topReached, ran⟩

/-- A loop that has faulted did so in some pass, which reached its top. -/
theorem iterate_error {k : Nat} {fault : ε}
    (faulted : iterate body start k = .error fault) :
    ∃ j state, j < k ∧ iterate body start j = .ok (.again state) ∧
      body state = .error fault := by
  induction k with
  | zero => simp at faulted
  | succ k inductionHypothesis =>
      cases before : iterate body start k with
      | error other =>
          obtain rfl : other = fault := by simpa [iterate, before] using faulted
          obtain ⟨j, top, lt, topReached, ran⟩ := inductionHypothesis before
          exact ⟨j, top, Nat.lt_succ_of_lt lt, topReached, ran⟩
      | ok pass =>
          cases pass with
          | again state =>
              exact ⟨k, state, Nat.lt_succ_self k, before,
                by rw [← faulted, iterate_succ_of_again before]⟩
          | leave state => simp [iterate, before] at faulted

/-! ### Two bodies -/

variable {body' : σ → Except ε (Pass σ)}

/-- Loops whose bodies agree where the first loop gets run alike, unless the
second one ends with the fault by which its body may differ. -/
theorem iterate_eq_or_error {fault : ε}
    (agree : ∀ k state, iterate body start k = .ok (.again state) →
      body' state = body state ∨ body' state = .error fault) (k : Nat) :
    iterate body' start k = iterate body start k ∨
      iterate body' start k = .error fault := by
  induction k with
  | zero => exact Or.inl rfl
  | succ k inductionHypothesis =>
      rcases inductionHypothesis with same | faulted
      · rw [iterate, iterate, same]
        cases outcome : iterate body start k with
        | error other => exact Or.inl rfl
        | ok pass =>
            cases pass with
            | leave state => exact Or.inl rfl
            | again state => exact agree k state outcome
      · exact Or.inr (by rw [iterate, faulted])

/-- Loops whose bodies agree where the first loop gets. -/
theorem iterate_congr
    (agree : ∀ k state, iterate body start k = .ok (.again state) →
      body' state = body state) (k : Nat) :
    iterate body' start k = iterate body start k := by
  induction k with
  | zero => rfl
  | succ k inductionHypothesis =>
      rw [iterate, iterate, inductionHypothesis]
      cases outcome : iterate body start k with
      | error other => rfl
      | ok pass =>
          cases pass with
          | leave state => rfl
          | again state => exact agree k state outcome

/-! ### Evaluating a loop -/

/-- The loop is at the top of a pass, in a state with the property `P`. -/
def againWith (P : σ → Prop) [DecidablePred P] : Except ε (Pass σ) → Bool
  | .ok (.again state) => decide (P state)
  | _ => false

theorem exists_of_againWith (P : σ → Prop) [DecidablePred P]
    (result : Except ε (Pass σ)) (found : againWith P result = true) :
    ∃ state, result = .ok (.again state) ∧ P state := by
  match result, found with
  | .ok (.again state), found => exact ⟨state, rfl, of_decide_eq_true found⟩

/-- If the loop is at the top of a pass, then in a state with the property
`P`. -/
def againAll (P : σ → Prop) [DecidablePred P] : Except ε (Pass σ) → Bool
  | .ok (.again state) => decide (P state)
  | _ => true

theorem forall_of_againAll (P : σ → Prop) [DecidablePred P]
    (result : Except ε (Pass σ)) (all : againAll P result = true) :
    ∀ state, result = .ok (.again state) → P state := by
  rintro state rfl
  exact of_decide_eq_true all

/-- The loop has left, in a state with the property `P`. -/
def leaveWith (P : σ → Prop) [DecidablePred P] : Except ε (Pass σ) → Bool
  | .ok (.leave state) => decide (P state)
  | _ => false

theorem exists_of_leaveWith (P : σ → Prop) [DecidablePred P]
    (result : Except ε (Pass σ)) (found : leaveWith P result = true) :
    ∃ state, result = .ok (.leave state) ∧ P state := by
  match result, found with
  | .ok (.leave state), found => exact ⟨state, rfl, of_decide_eq_true found⟩

theorem mem_toOption {α : Type} {value : α} {result : Except ε α} :
    value ∈ result.toOption ↔ result = .ok value := by
  cases result with
  | error fault => simp [Except.toOption]
  | ok other => simp [Except.toOption]

/-- The computation has gone through, with a result that has the property
`P`. -/
def okWith {α : Type} (P : α → Prop) [DecidablePred P] : Except ε α → Bool
  | .ok value => decide (P value)
  | .error _ => false

theorem exists_of_okWith {α : Type} (P : α → Prop) [DecidablePred P]
    (result : Except ε α) (found : okWith P result = true) :
    ∃ value, result = .ok value ∧ P value := by
  match result, found with
  | .ok value, found => exact ⟨value, rfl, of_decide_eq_true found⟩

theorem exists_of_isOk {α : Type} {result : Except ε α}
    (isOk : result.isOk = true) : ∃ value, result = .ok value := by
  match result, isOk with
  | .ok value, _ => exact ⟨value, rfl⟩

end OsPAs.Lib
