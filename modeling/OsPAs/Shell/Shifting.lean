/-
Module: OsPAs.Shell.Shifting
Purpose: The move that makes room for the words of an alias.  It copies from the
  back to the front, which is right for a move towards the back.  An alias
  without words moves the tokens one entry to the front, and then each entry
  that is copied has been overwritten before.
Trusted boundary: none
Main exports: MovedBack, smears, spaceBackWordCnt_zero, spaceBack_moves_iff,
  spaceBack_smears
-/
import OsPAs.Shell.Expansion

namespace OsPAs.Shell

open Lib

variable {α : Type} {tokens : SlotsOf α} {s : Aliases}
  {base nrTokens tokIdx valIdx w : Nat}

/-- What the move is to make of the array, where token `tokIdx` of `nrTokens` is an
alias for `w` words: the tokens behind it are `w - 1` entries further back, with
NULL behind them, and those in front of it stay. -/
structure MovedBack (tokens tokens' : SlotsOf α)
    (base nrTokens tokIdx w : Nat) : Prop where
  behind : ∀ j k : Fin maxNrTokens, base + tokIdx < k.val →
    k.val < base + nrTokens → j.val + 1 = k.val + w → tokens' j = tokens k
  ends : ∀ j : Fin maxNrTokens, j.val + 1 = base + nrTokens + w →
    tokens' j = none
  front : ∀ j : Fin maxNrTokens, j.val < base + tokIdx → tokens' j = tokens j

/-- Copying from the back to the front, each entry from the one behind it, leaves
the last one everywhere. -/
theorem smears (tokens : SlotsOf α) {last : Nat} (inside : last < maxNrTokens)
    (count : Nat) (le : count ≤ last) :
    (List.range count).foldlM (fun (tokens : SlotsOf α) (j : Nat) =>
      moveToken tokens ((last : Int) - 1 - j) ((last : Int) - j)) tokens =
      Except.ok fun k =>
        if last ≤ k.val + count ∧ k.val ≤ last then tokens ⟨last, inside⟩
        else tokens k := by
  induction count with
  | zero =>
      simp only [List.range_zero, List.foldlM_nil, pure, Except.pure,
        Except.ok.injEq]
      funext k
      split
      · rename_i isLast
        congr 1
        exact Fin.ext (show k.val = last by omega)
      · rfl
  | succ count inductionHypothesis =>
      have target : (last : Int) - 1 - count = (last - (count + 1) : Nat) := by
        omega
      have source : (last : Int) - count = (last - count : Nat) := by omega
      rw [List.range_succ, List.foldlM_append, inductionHypothesis (by omega)]
      simp only [List.foldlM_cons, List.foldlM_nil, target, source, bind,
        Except.bind, pure, Except.pure]
      rw [moveToken_of_lt (by omega) (by omega)]
      simp only [Except.ok.injEq]
      funext k
      rw [Function.update_apply]
      by_cases isTarget : k = ⟨last - (count + 1), by omega⟩
      · -- the source holds what the entry behind it held
        rw [if_pos isTarget, if_pos (by constructor <;> omega),
          if_pos (by rw [isTarget]; simp; omega)]
      · have other : k.val ≠ last - (count + 1) := fun same =>
          isTarget (Fin.ext same)
        rw [if_neg isTarget]
        by_cases smeared : last ≤ k.val + count ∧ k.val ≤ last
        · rw [if_pos smeared, if_pos (by omega)]
        · rw [if_neg smeared, if_neg (by omega)]

/-- For an alias without words every entry from the alias on gets the last
token. -/
theorem spaceBackWordCnt_zero {inside : valIdx < nrWordCnts}
    (counted : s.wordCnt ⟨valIdx, inside⟩ = 0) (isToken : tokIdx < nrTokens)
    (fits : base + nrTokens ≤ maxNrTokens) :
    spaceBackWordCnt s tokens base nrTokens tokIdx valIdx = .ok fun k =>
      if k.val + 1 = base + nrTokens then none
      else if base + tokIdx ≤ k.val ∧ k.val < base + nrTokens then
        tokens ⟨base + nrTokens - 1, by omega⟩
      else tokens k := by
  have smeared := smears tokens
    (show base + nrTokens - 1 < maxNrTokens by omega) (nrTokens - 1 - tokIdx)
    (by omega)
  have steps : ((nrTokens : Int) + (0 : Nat) - 2 + 1 - (tokIdx + (0 : Nat))).toNat =
      nrTokens - 1 - tokIdx := by
    omega
  have last : (base : Int) + ((nrTokens : Int) + (0 : Nat) - 1) =
      (base + nrTokens - 1 : Nat) := by
    omega
  have same (tokens : SlotsOf α) (j : Nat) :
      moveToken tokens ((base : Int) + ((nrTokens : Int) + (0 : Nat) - 2 - j))
        ((base : Int) + ((nrTokens : Int) + (0 : Nat) - 2 - j - (0 : Nat) + 1)) =
      moveToken tokens (((base + nrTokens - 1 : Nat) : Int) - 1 - j)
        (((base + nrTokens - 1 : Nat) : Int) - j) := by
    congr 1
    · omega
    · omega
  have behind : base + nrTokens - 1 < maxNrTokens := by omega
  simp only [spaceBackWordCnt, wordCntCell, dif_pos inside, counted, bind,
    Except.bind, pure, Except.pure, downFrom, List.foldlM_map, steps, same,
    smeared, last, slot_of_lt behind]
  simp only [Except.ok.injEq]
  funext k
  rw [Function.update_apply]
  by_cases isLast : k.val + 1 = base + nrTokens
  · rw [if_pos isLast, if_pos (Fin.ext (by simp; omega))]
  · rw [if_neg isLast, if_neg fun same => isLast (by rw [same]; simp; omega)]
    congr 1
    simp only [eq_iff_iff]
    omega

/-- With at least one word the move does what it is to do. -/
theorem movedBack_withRoom {shift rest : Nat} :
    MovedBack tokens (withRoom tokens (base + tokIdx) shift rest) base
      (tokIdx + 1 + rest) tokIdx (shift + 1) where
  behind := fun j k low high same => by
    have moved : base + tokIdx + shift < j.val ∧
        j.val ≤ base + tokIdx + shift + rest := by
      omega
    rw [withRoom, if_neg (by omega), if_pos moved]
    congr 1
    exact Fin.ext (show j.val - shift = k.val by omega)
  ends := fun j same => by
    rw [withRoom, if_pos (by omega)]
  front := fun j low => withRoom_of_le (by omega)

/-- Whatever the array holds and wherever the alias stands in it, if there is
room for its words the move does what it is to do if and only if the alias has
at least one word, or the tokens behind it are all the same (as they are if there
is one or none). -/
theorem spaceBack_moves_iff (s : Aliases) (tokens : SlotsOf α)
    (base nrTokens tokIdx valIdx w : Nat) (inside : valIdx < nrWordCnts)
    (counted : s.wordCnt ⟨valIdx, inside⟩ = w) (isToken : tokIdx < nrTokens)
    (fits : base + nrTokens + w ≤ maxNrTokens) :
    (∃ tokens', spaceBackWordCnt s tokens base nrTokens tokIdx valIdx =
        .ok tokens' ∧ MovedBack tokens tokens' base nrTokens tokIdx w) ↔
      1 ≤ w ∨ ∀ j k : Fin maxNrTokens, base + tokIdx < j.val →
        j.val < base + nrTokens → base + tokIdx < k.val →
        k.val < base + nrTokens → tokens j = tokens k := by
  cases w with
  | succ shift =>
      obtain ⟨rest, rfl⟩ : ∃ rest, nrTokens = tokIdx + 1 + rest :=
        Nat.exists_eq_add_of_lt isToken |>.imp fun rest eq => by omega
      refine iff_of_true ?_ (Or.inl (Nat.succ_pos shift))
      exact ⟨_, spaceBackWordCnt_eq counted (by omega), movedBack_withRoom⟩
  | zero =>
      have smeared : spaceBackWordCnt s tokens base nrTokens tokIdx valIdx = _ :=
        spaceBackWordCnt_zero counted isToken fits
      have last : base + nrTokens - 1 < maxNrTokens := by omega
      constructor
      · rintro ⟨tokens', moved, movedBack⟩
        obtain rfl := Except.ok.inj (smeared.symm.trans moved)
        -- each token behind the alias equals the last one
        have isLast (k : Fin maxNrTokens) (low : base + tokIdx < k.val)
            (high : k.val < base + nrTokens) :
            tokens k = tokens ⟨base + nrTokens - 1, last⟩ := by
          have before : k.val - 1 < maxNrTokens := by omega
          rw [← movedBack.behind ⟨k.val - 1, before⟩ k low high (by simp; omega)]
          rw [if_neg (by simp; omega), if_pos (by constructor <;> simp <;> omega)]
        refine Or.inr fun j k lowJ highJ lowK highK => ?_
        rw [isLast j lowJ highJ, isLast k lowK highK]
      · intro either
        have alike := either.resolve_left (Nat.lt_irrefl 0)
        refine ⟨_, smeared, ?_, ?_, ?_⟩
        · intro j k low high same
          rw [if_neg (by omega), if_pos (by omega)]
          exact alike _ _ (by simp; omega) (by simp; omega) low high
        · intro j same
          rw [if_pos (by omega)]
        · intro j low
          rw [if_neg (by omega), if_neg (by omega)]

/-- `x a b`. -/
def aliasAndTwo : CommandLine where
  tokens := [['x'], ['a'], ['b']]
  words := by decide
  fits := by decide

theorem spaceBack_moves_iff_twoWords :
    ∃ s, defineAlias ['x'] [['y'], ['z']] noAliases = .ok s ∧
      s.wordCnt ⟨0, by decide⟩ = 2 ∧
      ((∃ tokens', spaceBackWordCnt s aliasAndTwo.slots 0 3 0 0 = .ok tokens' ∧
          MovedBack aliasAndTwo.slots tokens' 0 3 0 2) ↔
        1 ≤ 2 ∨ ∀ j k : Fin maxNrTokens, 0 + 0 < j.val → j.val < 0 + 3 →
          0 + 0 < k.val → k.val < 0 + 3 →
            aliasAndTwo.slots j = aliasAndTwo.slots k) :=
  ⟨_, rfl, rfl, spaceBack_moves_iff _ aliasAndTwo.slots 0 3 0 0 2 (by decide) rfl
    (by decide) (by decide)⟩

/-- After `alias x` the move for `x a b` leaves `b b`, so `a` is lost. -/
theorem spaceBack_smears :
    ∃ s, defineAlias ['x'] [] noAliases = .ok s ∧
      s.wordCnt ⟨0, by decide⟩ = 0 ∧
      ∃ tokens', spaceBackWordCnt s aliasAndTwo.slots 0 3 0 0 = .ok tokens' ∧
        tokens' ⟨0, by decide⟩ = some ['b'] ∧
        tokens' ⟨1, by decide⟩ = some ['b'] ∧
        ¬ MovedBack aliasAndTwo.slots tokens' 0 3 0 0 := by
  refine ⟨_, rfl, rfl, _, rfl, rfl, rfl, fun moved => ?_⟩
  have first := moved.behind ⟨0, by decide⟩ ⟨1, by decide⟩ (by decide) (by decide)
    (by decide)
  exact absurd first (by decide)

end OsPAs.Shell
