/-
Module: OsPAs.Lib.WaitsFor
Purpose: Waits-for relations on finitely many parties: where everybody waits
  for somebody in the same set, every chain of waiting runs into a cycle, and
  where a rank rises along every chain there is none.
Trusted boundary: none
Main exports: OnCycle, reaches_cycle, not_onCycle_of_rank, LeadsToCycle,
  LeadsToCycle.next, LeadsToCycle.mono
-/
import Mathlib.Data.Fintype.Pigeonhole
import Mathlib.Logic.Relation
import Mathlib.Tactic.Common

namespace OsPAs.Lib

variable {α : Type}

/-- Following the relation from `a` leads back to `a`. -/
def OnCycle (waitsFor : α → α → Prop) (a : α) : Prop :=
  Relation.TransGen waitsFor a a

variable {waitsFor : α → α → Prop}

/-- Walking along a chain of waiting. -/
theorem reflTransGen_of_chain (walk : Nat → α)
    (steps : ∀ i, waitsFor (walk i) (walk (i + 1))) (i d : Nat) :
    Relation.ReflTransGen waitsFor (walk i) (walk (i + d)) := by
  induction d with
  | zero => exact .refl
  | succ d inductionHypothesis => exact inductionHypothesis.tail (steps (i + d))

theorem transGen_of_chain (walk : Nat → α)
    (steps : ∀ i, waitsFor (walk i) (walk (i + 1))) {i j : Nat} (lt : i < j) :
    Relation.TransGen waitsFor (walk i) (walk j) := by
  obtain ⟨d, rfl⟩ := Nat.exists_eq_add_of_lt lt
  exact .tail' (reflTransGen_of_chain walk steps i d) (steps (i + d))

/-- If every member of a set of finitely many parties waits for a member, then
from every member a cycle of members is reached. -/
theorem reaches_cycle [Finite α] {stuck : α → Prop}
    (waits : ∀ a, stuck a → ∃ b, stuck b ∧ waitsFor a b) {a : α}
    (isStuck : stuck a) :
    ∃ b, stuck b ∧ Relation.ReflTransGen waitsFor a b ∧ OnCycle waitsFor b := by
  choose next isNextStuck isNext using waits
  let step (party : {a // stuck a}) : {a // stuck a} :=
    ⟨next party.1 party.2, isNextStuck party.1 party.2⟩
  let walk (i : Nat) : {a // stuck a} := step^[i] ⟨a, isStuck⟩
  have steps (i : Nat) : waitsFor (walk i).1 (walk (i + 1)).1 := by
    simp only [walk, Function.iterate_succ', Function.comp_apply]
    exact isNext (walk i).1 (walk i).2
  -- infinitely many steps among finitely many parties meet one of them twice
  obtain ⟨i, j, differ, same⟩ :=
    Finite.exists_ne_map_eq_of_infinite fun i => (walk i).1
  refine ⟨(walk i).1, (walk i).2, ?_, ?_⟩
  · have reached := reflTransGen_of_chain (fun i => (walk i).1) steps 0 i
    rwa [Nat.zero_add] at reached
  · change Relation.TransGen waitsFor (walk i).1 (walk i).1
    rcases Nat.lt_or_gt_of_ne differ with lt | lt
    · have round := transGen_of_chain (fun i => (walk i).1) steps lt
      rwa [← same] at round
    · have round := transGen_of_chain (fun i => (walk i).1) steps lt
      rwa [← same] at round

/-- A rank that rises from everybody who waits to everybody waited for, if that
party waits as well, rises along every chain of waiting. -/
theorem rank_lt_of_transGen (rank : α → Nat)
    (rises : ∀ a b c, waitsFor a b → waitsFor b c → rank a < rank b) {a b c : α}
    (chain : Relation.TransGen waitsFor a b) (goesOn : waitsFor b c) :
    rank a < rank b := by
  induction chain generalizing c with
  | single waits => exact rises _ _ _ waits goesOn
  | tail _ waits inductionHypothesis =>
      exact (inductionHypothesis waits).trans (rises _ _ _ waits goesOn)

/-- Such a rank rules out cycles. -/
theorem not_onCycle_of_rank (rank : α → Nat)
    (rises : ∀ a b c, waitsFor a b → waitsFor b c → rank a < rank b) (a : α) :
    ¬ OnCycle waitsFor a := by
  intro round
  obtain ⟨b, waits, _⟩ := Relation.TransGen.head'_iff.mp round
  exact Nat.lt_irrefl _ (rank_lt_of_transGen rank rises round waits)

/-! ### Chains that lead to a cycle -/

/-- Following the relation from `a` a cycle is met. -/
def LeadsToCycle (waitsFor : α → α → Prop) (a : α) : Prop :=
  ∃ b, Relation.ReflTransGen waitsFor a b ∧ OnCycle waitsFor b

/-- Somebody on a cycle waits for somebody on it. -/
theorem OnCycle.next {a : α} (round : OnCycle waitsFor a) :
    ∃ b, waitsFor a b ∧ OnCycle waitsFor b := by
  obtain ⟨b, waits, back⟩ := Relation.TransGen.head'_iff.mp round
  exact ⟨b, waits, .tail' back waits⟩

/-- Whoever is led to a cycle waits for somebody else who is. -/
theorem LeadsToCycle.next {a : α} (leads : LeadsToCycle waitsFor a) :
    ∃ b, waitsFor a b ∧ LeadsToCycle waitsFor b := by
  obtain ⟨target, chain, round⟩ := leads
  rcases Relation.ReflTransGen.cases_head chain with rfl | ⟨b, waits, rest⟩
  · obtain ⟨b, waits, isRound⟩ := round.next
    exact ⟨b, waits, b, .refl, isRound⟩
  · exact ⟨b, waits, target, rest, round⟩

/-- A cycle stays one where the waiting of those on it goes on. -/
theorem OnCycle.mono {waitsFor' : α → α → Prop}
    (goesOn : ∀ a b, OnCycle waitsFor a → OnCycle waitsFor b → waitsFor a b →
      waitsFor' a b) {a : α} (round : OnCycle waitsFor a) :
    OnCycle waitsFor' a := by
  have chain (b : α) (there : Relation.TransGen waitsFor a b)
      (back : Relation.ReflTransGen waitsFor b a) :
      Relation.TransGen waitsFor' a b := by
    induction there with
    | single waits =>
        exact .single (goesOn _ _ (.head' waits back) (.tail' back waits) waits)
    | tail there waits inductionHypothesis =>
        have around := back.trans there.to_reflTransGen
        exact .tail (inductionHypothesis (back.head waits))
          (goesOn _ _ (.head' waits around) (.tail' around waits) waits)
  exact chain a round .refl

/-- So does a chain that leads to one. -/
theorem LeadsToCycle.mono {waitsFor' : α → α → Prop}
    (goesOn : ∀ a b, LeadsToCycle waitsFor a → LeadsToCycle waitsFor b →
      waitsFor a b → waitsFor' a b) {a : α} (leads : LeadsToCycle waitsFor a) :
    LeadsToCycle waitsFor' a := by
  obtain ⟨target, chain, round⟩ := leads
  refine ⟨target, ?_, round.mono fun b c isRound isRound' =>
    goesOn b c ⟨b, .refl, isRound⟩ ⟨c, .refl, isRound'⟩⟩
  induction chain using Relation.ReflTransGen.head_induction_on with
  | refl => exact .refl
  | head waits rest inductionHypothesis =>
      exact .head (goesOn _ _ ⟨target, rest.head waits, round⟩
        ⟨target, rest, round⟩ waits) inductionHypothesis

end OsPAs.Lib
