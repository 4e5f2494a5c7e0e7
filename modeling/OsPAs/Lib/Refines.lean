/-
Module: OsPAs.Lib.Refines
Purpose: A computation that refines another one: it gives a related result, and
  it faults as the other one does, apart from faults that it cannot see.
Trusted boundary: none
Main exports: Refines, Refines.bind, Refines.mono, refines_ok, Alike,
  refines_iterate
-/
import OsPAs.Lib.Loop

namespace OsPAs.Lib

variable {ε φ α β α' β' σ τ : Type} {seen : φ → Option ε}

/-- Computation `x` refines the given one.  Where that one has a fault that
`seen` maps to none, `x` may do anything. -/
def Refines (seen : φ → Option ε) (related : α → β → Prop)
    (x : Except ε α) : Except φ β → Prop
  | .ok b => ∃ a, x = .ok a ∧ related a b
  | .error fault => ∀ f, seen fault = some f → x = .error f

variable {related : α → β → Prop} {related' : α' → β' → Prop}
  {x : Except ε α} {y : Except φ β}

theorem refines_ok {a : α} {b : β} (holds : related a b) :
    Refines seen related (.ok a) (.ok b) :=
  ⟨a, rfl, holds⟩

theorem refines_fault {fault : φ} {f : ε} (same : seen fault = some f) :
    Refines seen related (.error f) (.error fault) := by
  intro f' sees
  rw [same] at sees
  rw [Option.some.inj sees]

theorem refines_unseen {fault : φ} (unseen : seen fault = none) :
    Refines seen related x (.error fault) := by
  intro f sees
  rw [unseen] at sees
  exact absurd sees (by simp)

theorem Refines.bind {f : α → Except ε α'} {g : β → Except φ β'}
    (first : Refines seen related x y)
    (next : ∀ a b, related a b → Refines seen related' (f a) (g b)) :
    Refines seen related' (x >>= f) (y >>= g) := by
  cases y with
  | ok b =>
      obtain ⟨a, rfl, holds⟩ := first
      exact next a b holds
  | error fault =>
      intro f' sees
      rw [first f' sees]
      rfl

theorem Refines.mono {weaker : α → β → Prop} (refines : Refines seen related x y)
    (implies : ∀ a b, related a b → weaker a b) : Refines seen weaker x y := by
  cases y with
  | ok b =>
      obtain ⟨a, ran, holds⟩ := refines
      exact ⟨a, ran, implies a b holds⟩
  | error fault => exact refines

/-- Passes that end alike, in related states. -/
inductive Alike (related : σ → τ → Prop) : Pass σ → Pass τ → Prop where
  | again {s : σ} {t : τ} (states : related s t) :
      Alike related (.again s) (.again t)
  | leave {s : σ} {t : τ} (states : related s t) :
      Alike related (.leave s) (.leave t)

/-- A loop refines another one if its body does. -/
theorem refines_iterate {related : σ → τ → Prop}
    {body : σ → Except ε (Pass σ)} {body' : τ → Except φ (Pass τ)} {s : σ} {t : τ}
    (bodies : ∀ s t, related s t →
      Refines seen (Alike related) (body s) (body' t))
    (start : related s t) (k : Nat) :
    Refines seen (Alike related) (iterate body s k) (iterate body' t k) := by
  induction k with
  | zero => exact refines_ok (.again start)
  | succ k inductionHypothesis =>
      rw [iterate, iterate]
      generalize iterate body' t k = outcome at inductionHypothesis
      cases outcome with
      | error fault =>
          intro f sees
          rw [inductionHypothesis f sees]
      | ok pass =>
          obtain ⟨pass', ran, alike⟩ := inductionHypothesis
          rw [ran]
          cases alike with
          | again states => exact bodies _ _ states
          | leave states => exact refines_ok (.leave states)

end OsPAs.Lib
