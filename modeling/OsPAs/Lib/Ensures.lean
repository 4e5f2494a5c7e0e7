/-
Module: OsPAs.Lib.Ensures
Purpose: What a computation that may fail ensures of its result if it gives
  one, and that it fails in one way only, rule by rule.
Trusted boundary: none
Main exports: Ensures, ensures_ok, ensures_error, Ensures.bind, Ensures.mono,
  ensures_self, ensures_foldlM, FaultsOnly, FaultsOnly.bind_eq_error
-/
import Mathlib.Tactic.Common

namespace OsPAs.Lib

variable {ε α β σ : Type}

/-- If the computation gives a result, the result has the property. -/
def Ensures (post : α → Prop) (x : Except ε α) : Prop :=
  ∀ a, x = .ok a → post a

variable {post weaker : α → Prop} {x : Except ε α} {a : α}

theorem ensures_ok (holds : post a) : Ensures post (.ok a : Except ε α) :=
  fun _ eq => Except.ok.inj eq ▸ holds

theorem ensures_error (fault : ε) : Ensures post (.error fault) :=
  fun _ eq => nomatch eq

/-- The result of a computation is its result. -/
theorem ensures_self (x : Except ε α) : Ensures (fun a => x = .ok a) x :=
  fun _ eq => eq

theorem Ensures.mono (ensures : Ensures post x)
    (implies : ∀ a, post a → weaker a) : Ensures weaker x :=
  fun a eq => implies a (ensures a eq)

/-- A computation and what goes on from its result. -/
theorem Ensures.bind {mid : α → Prop} {after : β → Prop}
    {f : α → Except ε β} (first : Ensures mid x)
    (next : ∀ a, mid a → Ensures after (f a)) : Ensures after (x >>= f) := by
  cases x with
  | error fault => exact ensures_error fault
  | ok a => exact next a (first a rfl)

/-- A loop ensures what each of its passes carries. -/
theorem ensures_foldlM (Inv : σ → Prop) {f : σ → α → Except ε σ}
    (carried : ∀ s a, Inv s → Ensures Inv (f s a)) (list : List α) {s : σ}
    (initially : Inv s) : Ensures Inv (list.foldlM f s) := by
  induction list generalizing s with
  | nil => exact ensures_ok initially
  | cons a rest inductionHypothesis =>
      rw [List.foldlM_cons]
      exact (carried s a initially).bind fun s' => inductionHypothesis

/-! ### Faults -/

/-- The computation does not fail in another way. -/
def FaultsOnly (fault : ε) (x : Except ε α) : Prop :=
  ∀ other, x = .error other → other = fault

variable {fault : ε}

theorem faultsOnly_ok (a : α) : FaultsOnly fault (.ok a : Except ε α) :=
  fun _ eq => nomatch eq

theorem faultsOnly_error : FaultsOnly fault (.error fault : Except ε α) :=
  fun _ eq => (Except.error.inj eq).symm

theorem FaultsOnly.bind {f : α → Except ε β} (first : FaultsOnly fault x)
    (next : ∀ a, FaultsOnly fault (f a)) : FaultsOnly fault (x >>= f) := by
  cases x with
  | error other =>
      rw [first other rfl]
      exact faultsOnly_error
  | ok a => exact next a

theorem faultsOnly_foldlM {f : σ → α → Except ε σ}
    (pass : ∀ s a, FaultsOnly fault (f s a)) (list : List α) (s : σ) :
    FaultsOnly fault (list.foldlM f s) := by
  induction list generalizing s with
  | nil => exact faultsOnly_ok s
  | cons a rest inductionHypothesis =>
      rw [List.foldlM_cons]
      exact (pass s a).bind inductionHypothesis

/-- What goes on to fail after any result fails. -/
theorem FaultsOnly.bind_eq_error {f : α → Except ε β}
    (first : FaultsOnly fault x) (fails : ∀ a, f a = .error fault) :
    x >>= f = .error fault := by
  cases x with
  | error other =>
      rw [first other rfl]
      rfl
  | ok a => exact fails a

end OsPAs.Lib
