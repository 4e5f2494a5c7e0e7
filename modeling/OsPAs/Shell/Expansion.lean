/-
Module: OsPAs.Shell.Expansion
Purpose: The expansion of aliases in a child process.  The loop replaces each
  token that is a key by the words of its latest definition, in place, and does
  not look at the words again.
Trusted boundary: none
Main exports: expand, Laid, spaceBackWordCnt_spec, addedTokens_spec, child_spec
-/
import OsPAs.Lib.Cells
import OsPAs.Shell.Table

namespace OsPAs.Shell

open Lib

/-- One-pass substitution by the latest definitions. -/
def expand (defs : List Definition) (tokens : List CString) : List CString :=
  tokens.flatMap fun token => (latest defs token).getD [token]

/-- From entry `base` on `tokens` holds the strings, and NULL behind them. -/
def Laid (tokens : Slots) (base : Nat) (words : List CString) : Prop :=
  ∀ k : Fin maxNrTokens, base ≤ k.val → k.val ≤ base + words.length →
    tokens k = words[k.val - base]?

/-! ### Reading the array -/

section Read

variable {tokens : Slots} {base : Nat} {word : CString} {words : List CString}

theorem Laid.tail (laid : Laid tokens base (word :: words)) :
    Laid tokens (base + 1) words := by
  intro k low high
  rw [laid k (by omega) (by rw [List.length_cons]; omega)]
  have next : k.val - base = (k.val - (base + 1)) + 1 := by omega
  rw [next, List.getElem?_cons_succ]

/-- The argument vector is what the array holds. -/
theorem Laid.argVector (laid : Laid tokens base words)
    (fits : base + words.length < maxNrTokens) :
    argVector tokens (maxNrTokens - base) base = .ok words := by
  induction words generalizing base with
  | nil =>
      obtain ⟨left, isLeft⟩ : ∃ left, maxNrTokens - base = left + 1 :=
        Nat.exists_eq_add_one.mpr (Nat.sub_pos_of_lt (by simpa using fits))
      have atBase := laid ⟨base, by simpa using fits⟩ (Nat.le_refl _) (by simp)
      rw [isLeft, OsPAs.Shell.argVector, slot_of_lt (by simpa using fits)]
      simp only [bind, Except.bind, atBase]
      simp
  | cons word words inductionHypothesis =>
      rw [List.length_cons] at fits
      obtain ⟨left, isLeft⟩ : ∃ left, maxNrTokens - base = left + 1 :=
        Nat.exists_eq_add_one.mpr (by omega)
      have rest := inductionHypothesis laid.tail (by omega)
      have isRest : maxNrTokens - (base + 1) = left := by omega
      have inside : base < maxNrTokens := by omega
      have atBase := laid ⟨base, inside⟩ (Nat.le_refl _) (by simp)
      rw [isRest] at rest
      rw [isLeft, OsPAs.Shell.argVector, slot_of_lt inside]
      simp only [bind, Except.bind, atBase, Nat.sub_self, List.getElem?_cons_zero,
        rest]
      rfl

theorem Laid.tokenAt {before rest : List CString}
    (laid : Laid tokens base (before ++ word :: rest))
    (fits : base + before.length < maxNrTokens) :
    tokenAt tokens (base + before.length) = .ok word := by
  have inside : base + before.length < maxNrTokens := fits
  have here := laid ⟨base + before.length, inside⟩ (by simp) (by simp)
  have index : ((base : Int) + before.length) = (base + before.length : Nat) := by
    simp
  rw [OsPAs.Shell.tokenAt, index, slot_of_lt inside]
  simp only [bind, Except.bind, here]
  simp

end Read

/-! ### Making room -/

section Move

variable {α : Type} {tokens : SlotsOf α} {base : Nat}

theorem moveToken_of_lt {k source : Nat} (insideK : k < maxNrTokens)
    (inside : source < maxNrTokens) : moveToken tokens k source =
      .ok (Function.update tokens ⟨k, insideK⟩ (tokens ⟨source, inside⟩)) := by
  simp [moveToken, slot_of_lt insideK, slot_of_lt inside, bind, Except.bind, pure,
    Except.pure]

/-- The `count` last of the `rest` entries behind `pos` have moved by `shift`,
and the entry moved last is the one nearest to `pos`. -/
theorem moves_down (tokens : SlotsOf α) (pos shift rest : Nat)
    (fits : pos + shift + rest < maxNrTokens) (count : Nat) (le : count ≤ rest) :
    (List.range count).foldlM (fun (tokens : SlotsOf α) (j : Nat) =>
      moveToken tokens (((pos + shift + rest : Nat) : Int) - j)
        (((pos + rest : Nat) : Int) - j)) tokens =
      Except.ok fun k =>
        if pos + shift + rest < k.val + count ∧ k.val ≤ pos + shift + rest then
          tokens ⟨k.val - shift, by omega⟩
        else tokens k := by
  induction count with
  | zero =>
      have nothing (k : Fin maxNrTokens) :
          ¬ (pos + shift + rest < k.val + 0 ∧ k.val ≤ pos + shift + rest) := by
        omega
      simp only [nothing, if_false]
      rfl
  | succ count inductionHypothesis =>
      have target : ((pos + shift + rest : Nat) : Int) - count =
          (pos + shift + rest - count : Nat) := by omega
      have source : ((pos + rest : Nat) : Int) - count =
          (pos + rest - count : Nat) := by omega
      rw [List.range_succ, List.foldlM_append, inductionHypothesis (by omega)]
      simp only [List.foldlM_cons, List.foldlM_nil, target, source, bind,
        Except.bind, pure, Except.pure]
      rw [moveToken_of_lt (by omega) (by omega)]
      simp only [Except.ok.injEq]
      funext k
      rw [Function.update_apply]
      by_cases isTarget : k = ⟨pos + shift + rest - count, by omega⟩
      · -- the source has not been overwritten yet
        rw [if_pos isTarget, if_neg (by simp; omega),
          if_pos (by rw [isTarget]; simp; omega)]
        have isSource : k.val - shift = pos + rest - count := by
          rw [isTarget]
          simp
          omega
        simp only [isSource]
      · have other : k.val ≠ pos + shift + rest - count := fun same =>
          isTarget (Fin.ext same)
        rw [if_neg isTarget]
        by_cases moved :
            pos + shift + rest < k.val + count ∧ k.val ≤ pos + shift + rest
        · rw [if_pos moved, if_pos (by omega)]
        · rw [if_neg moved, if_neg (by omega)]

/-- The array with the `rest` entries behind `pos` moved by `shift`, and NULL
behind them. -/
def withRoom (tokens : SlotsOf α) (pos shift rest : Nat) : SlotsOf α := fun k =>
  if k.val = pos + shift + 1 + rest then none
  else if pos + shift < k.val ∧ k.val ≤ pos + shift + rest then
    tokens ⟨k.val - shift, by omega⟩
  else tokens k

/-- Room is made for the words of the alias, at least one. -/
theorem spaceBackWordCnt_eq {s : Aliases} {valIdx tokIdx shift rest : Nat}
    {inside : valIdx < nrWordCnts}
    (counted : s.wordCnt ⟨valIdx, inside⟩ = shift + 1)
    (fits : base + tokIdx + shift + 1 + rest < maxNrTokens) :
    spaceBackWordCnt s tokens base (tokIdx + 1 + rest) tokIdx valIdx =
      .ok (withRoom tokens (base + tokIdx) shift rest) := by
  have moved := moves_down tokens (base + tokIdx) shift rest (by omega) rest
    (Nat.le_refl _)
  have steps : (((tokIdx + 1 + rest : Nat) : Int) + (shift + 1 : Nat) - 2 + 1 -
      (tokIdx + (shift + 1 : Nat))).toNat = rest := by
    omega
  have last : (base : Int) + (((tokIdx + 1 + rest : Nat) : Int) +
      (shift + 1 : Nat) - 1) = (base + tokIdx + shift + 1 + rest : Nat) := by
    omega
  have same (tokens : SlotsOf α) (j : Nat) :
      moveToken tokens
        ((base : Int) + (((tokIdx + 1 + rest : Nat) : Int) + (shift + 1 : Nat) -
          2 - j))
        ((base : Int) + (((tokIdx + 1 + rest : Nat) : Int) + (shift + 1 : Nat) -
          2 - j - (shift + 1 : Nat) + 1)) =
      moveToken tokens (((base + tokIdx + shift + rest : Nat) : Int) - j)
        (((base + tokIdx + rest : Nat) : Int) - j) := by
    congr 1
    · omega
    · omega
  simp only [spaceBackWordCnt, wordCntCell, dif_pos inside, counted, bind,
    Except.bind, pure, Except.pure, downFrom, List.foldlM_map, steps, same,
    moved, last, slot_of_lt fits]
  simp only [Except.ok.injEq]
  funext k
  rw [Function.update_apply, withRoom]
  by_cases isLast : k = ⟨base + tokIdx + shift + 1 + rest, fits⟩
  · rw [if_pos isLast, if_pos (congrArg Fin.val isLast)]
  · rw [if_neg isLast, if_neg fun same => isLast (Fin.ext same)]
    congr 1
    simp only [eq_iff_iff]
    omega

/-- What stood behind the token stands behind the room. -/
theorem Laid.withRoom {tokens : Slots} {before rest : List CString} {token : CString}
    (laid : Laid tokens base (before ++ token :: rest)) (shift : Nat) :
    Laid (withRoom tokens (base + before.length) shift rest.length)
      (base + before.length + shift + 1) rest := by
  intro k low high
  rw [OsPAs.Shell.withRoom]
  split
  · rename_i isLast
    rw [List.getElem?_eq_none (by omega)]
  · rename_i notLast
    have moved : base + before.length + shift < k.val ∧
        k.val ≤ base + before.length + shift + rest.length := by
      omega
    rw [if_pos moved, laid _ (by simp; omega) (by simp; omega)]
    have index : k.val - shift - base =
        before.length + (k.val - (base + before.length + shift + 1) + 1) := by
      omega
    rw [index, List.getElem?_append_right (by omega), Nat.add_sub_cancel_left,
      List.getElem?_cons_succ]

/-- What stood in front of the room stands there still. -/
theorem withRoom_of_le {pos shift rest : Nat} {k : Fin maxNrTokens}
    (front : k.val ≤ pos + shift) : withRoom tokens pos shift rest k = tokens k := by
  rw [withRoom, if_neg (by omega), if_neg (by omega)]

end Move

/-! ### Filling it in -/

section Write

variable {tokens : Slots} {base : Nat} {s : Aliases} {defs : List Definition}

theorem writeWords_eq (words : List CString) (tokens : Slots) (pos : Nat) :
    writeWords tokens pos words = storeFrom .outOfBounds tokens pos words := by
  induction words generalizing tokens pos with
  | nil => rfl
  | cons word words inductionHypothesis =>
      rw [writeWords, storeFrom]
      split
      · rename_i inside
        rw [slot_of_lt inside, ← inductionHypothesis]
        rfl
      · rename_i outside
        rw [slot_of_le (Nat.le_of_not_lt outside)]
        rfl

/-- The words stand where they were written, and everything else is as it
was. -/
theorem writeWords_spec (words : List CString) (tokens : Slots) (pos : Nat)
    (fits : pos + words.length ≤ maxNrTokens) :
    ∃ tokens', writeWords tokens pos words = .ok tokens' ∧
      ∀ k : Fin maxNrTokens, tokens' k =
        if pos ≤ k.val ∧ k.val < pos + words.length then words[k.val - pos]?
        else tokens k := by
  refine ⟨stored tokens pos words, ?_, fun k => rfl⟩
  rw [writeWords_eq, storeFrom_eq words (by omega), if_pos fits]

/-- Words written behind what the array holds, in front of the rest. -/
theorem Laid.filled {before words rest : List CString} {tokens' : Slots}
    (front : ∀ k : Fin maxNrTokens, base ≤ k.val →
      k.val < base + before.length → tokens k = before[k.val - base]?)
    (behind : Laid tokens (base + before.length + words.length) rest)
    (holds : ∀ k : Fin maxNrTokens, tokens' k =
      if base + before.length ≤ k.val ∧
        k.val < base + before.length + words.length then
        words[k.val - (base + before.length)]?
      else tokens k) :
    Laid tokens' base (before ++ words ++ rest) := by
  intro k low high
  simp only [List.length_append] at high
  rw [holds]
  split
  · rename_i inWords
    have index : k.val - (base + before.length) = k.val - base - before.length := by
      omega
    rw [List.append_assoc, List.getElem?_append_right (by omega),
      List.getElem?_append_left (by omega), index]
  · rename_i notInWords
    by_cases inFront : k.val < base + before.length
    · rw [front k low inFront, List.append_assoc,
        List.getElem?_append_left (by omega)]
    · rw [behind k (by omega) (by omega), List.getElem?_append_right (by
        rw [List.length_append]; omega), List.length_append]
      congr 1
      omega

/-- A token is replaced by the words of the alias. -/
theorem replaceTokenWithAlias_eq {pos tokIdx : Nat} {entry : Alias}
    {words : List CString} {tokens' : Slots}
    (areWords : ∀ word ∈ words, IsWord delimiters word)
    (found : s.entries[pos]? = some entry) (isVal : entry.val = joined words)
    (written : writeWords tokens (base + tokIdx) words = .ok tokens') :
    replaceTokenWithAlias s tokens base tokIdx pos = .ok (tokens', s) := by
  have read : s.valAt pos = .ok (joined words) := by
    rw [Aliases.valAt, found, ← isVal]
  have restored := setVal_self found
  rw [isVal] at restored
  simp only [replaceTokenWithAlias, read, bind, Except.bind, pure, Except.pure,
    strtokAll_joined areWords, written, restoreBlanks_joined areWords, restored]

end Write

/-! ### The loop -/

section Loop

variable {tokens : Slots} {base : Nat} {s : Aliases} {defs : List Definition}
  {before rest : List CString} {token : CString}

theorem currentToken_eq (nrTokens i : Nat) :
    currentToken base { aliases := s, tokens := tokens, nrTokens := nrTokens, i := i } =
      tokenAt tokens (base + i) := rfl

/-- What the definitions must be like: words, and at least one of them. -/
structure Filled (defs : List Definition) : Prop where
  words : ∀ d ∈ defs, ∀ word ∈ d.2, IsWord delimiters word
  notEmpty : ∀ d ∈ defs, d.2 ≠ []

theorem Filled.latest_ne (filled : Filled defs) (token : CString) :
    latest defs token ≠ some [] := fun found =>
  filled.notEmpty _ (mem_of_latest found) rfl

theorem expand_cons (defs : List Definition) (token : CString)
    (rest : List CString) : expand defs (token :: rest) =
      (latest defs token).getD [token] ++ expand defs rest :=
  List.flatMap_cons

/-- Nothing gets shorter. -/
theorem Filled.length_le_expand (filled : Filled defs) (tokens : List CString) :
    tokens.length ≤ (expand defs tokens).length := by
  induction tokens with
  | nil => exact Nat.le_refl _
  | cons token rest inductionHypothesis =>
      rw [expand_cons, List.length_append, List.length_cons]
      have positive : 0 < ((latest defs token).getD [token]).length := by
        cases found : latest defs token with
        | none => simp
        | some words =>
            exact List.length_pos_iff.mpr (filled.notEmpty _ (mem_of_latest found))
      omega

theorem freeToken_of_pos {k wordCnt : Nat} (inside : k < maxNrTokens)
    (positive : 0 < wordCnt) : freeToken tokens k wordCnt = .ok false := by
  simp [freeToken, slot_of_lt inside, Nat.pos_iff_ne_zero.mp positive, bind,
    Except.bind, pure, Except.pure]

/-- One pass replaces one token, if its alias is not without words. -/
theorem addedToken_spec (tab : Tabulates defs s)
    (areWords : ∀ d ∈ defs, ∀ word ∈ d.2, IsWord delimiters word)
    (notEmpty : latest defs token ≠ some [])
    (laid : Laid tokens base (before ++ token :: rest))
    (fits : base + before.length + ((latest defs token).getD [token]).length +
      rest.length < maxNrTokens) :
    ∃ tokens', addedToken base
        { aliases := s, tokens := tokens
          nrTokens := before.length + 1 + rest.length, i := before.length } =
      .ok {
        aliases := s
        tokens := tokens'
        nrTokens := (before ++ (latest defs token).getD [token]).length + rest.length
        i := (before ++ (latest defs token).getD [token]).length } ∧
      Laid tokens' base (before ++ (latest defs token).getD [token] ++ rest) := by
  have read := laid.tokenAt (by omega)
  cases found : findAliasIndex s token with
  | none =>
      rw [tab.find_none.mp found]
      refine ⟨tokens, ?_, by simpa using laid⟩
      simp only [addedToken, currentToken_eq, read, found, bind, Except.bind, pure,
        Except.pure]
      simp
  | some pos =>
      obtain ⟨entry, words, atPos, isLatest, isVal, inside, counted⟩ :=
        tab.find_some found
      have member := mem_of_latest isLatest
      have someWords : words ≠ [] := by
        rintro rfl
        exact notEmpty isLatest
      obtain ⟨shift, isShift⟩ : ∃ shift, words.length = shift + 1 :=
        Nat.exists_eq_add_one.mpr (List.length_pos_iff.mpr someWords)
      rw [isLatest] at fits ⊢
      simp only [Option.getD_some] at fits ⊢
      have moved : spaceBackWordCnt s tokens base
          (before.length + 1 + rest.length) before.length pos =
            .ok (withRoom tokens (base + before.length) shift rest.length) :=
        spaceBackWordCnt_eq (counted.trans isShift) (by omega)
      obtain ⟨tokens', written, holds⟩ := writeWords_spec words
        (withRoom tokens (base + before.length) shift rest.length)
        (base + before.length) (by omega)
      have replaced := replaceTokenWithAlias_eq (areWords _ member) atPos isVal
        written
      have freed (tokens : Slots) : freeToken tokens (base + before.length)
          words.length = .ok false :=
        freeToken_of_pos (by omega) (List.length_pos_iff.mpr someWords)
      have front (k : Fin maxNrTokens) (low : base ≤ k.val)
          (high : k.val < base + before.length) :
          withRoom tokens (base + before.length) shift rest.length k =
            before[k.val - base]? := by
        rw [withRoom_of_le (by omega), laid k low (by simp; omega),
          List.getElem?_append_left (by omega)]
      have behind : Laid
          (withRoom tokens (base + before.length) shift rest.length)
          (base + before.length + words.length) rest := by
        rw [isShift]
        exact laid.withRoom shift
      refine ⟨tokens', ?_, Laid.filled front behind holds⟩
      simp only [addedToken, currentToken_eq, read, found, moved, replaced, freed,
        wordCntCell, dif_pos inside, counted, bind, Except.bind, pure, Except.pure,
        List.length_append]
      have number : before.length + 1 + rest.length + words.length - 1 =
          before.length + words.length + rest.length := by
        omega
      rw [number]

/-- The loop on a token that it has still to visit: a pass, and then the rest. -/
theorem addedTokens_cons (s : Aliases) (tokens : Slots) (base : Nat)
    (before : List CString) (token : CString) (rest : List CString) :
    addedTokens base (token :: rest).length
        { aliases := s, tokens := tokens
          nrTokens := before.length + (token :: rest).length, i := before.length } =
      addedToken base
          { aliases := s, tokens := tokens
            nrTokens := before.length + 1 + rest.length, i := before.length } >>=
        addedTokens base rest.length := by
  have number : before.length + (token :: rest).length =
      before.length + 1 + rest.length := by
    rw [List.length_cons]
    omega
  have notDone : before.length < before.length + 1 + rest.length := by omega
  rw [number, List.length_cons, addedTokens, if_pos notDone]

/-- The loop replaces each of the tokens `todo` that it has still to visit. -/
theorem addedTokens_spec (tab : Tabulates defs s) (filled : Filled defs)
    (todo before : List CString) (tokens : Slots)
    (laid : Laid tokens base (before ++ todo))
    (fits : base + (before ++ expand defs todo).length < maxNrTokens) :
    ∃ tokens', addedTokens base todo.length
        { aliases := s, tokens := tokens
          nrTokens := before.length + todo.length, i := before.length } =
      .ok {
        aliases := s
        tokens := tokens'
        nrTokens := (before ++ expand defs todo).length
        i := (before ++ expand defs todo).length } ∧
      Laid tokens' base (before ++ expand defs todo) := by
  induction todo generalizing before tokens with
  | nil =>
      refine ⟨tokens, ?_, laid⟩
      simp [addedTokens, expand]
  | cons token rest inductionHypothesis =>
      have longer := filled.length_le_expand rest
      rw [expand_cons, ← List.append_assoc] at fits ⊢
      have fitsNow : base + before.length +
          ((latest defs token).getD [token]).length + rest.length <
            maxNrTokens := by
        simp only [List.length_append] at fits
        omega
      obtain ⟨tokens', replaced, laid'⟩ :=
        addedToken_spec tab filled.words (filled.latest_ne token) laid fitsNow
      obtain ⟨tokens'', goesOn, laid''⟩ := inductionHypothesis
        (before ++ (latest defs token).getD [token]) tokens' laid' fits
      refine ⟨tokens'', ?_, laid''⟩
      rw [addedTokens_cons, replaced]
      exact goesOn

/-- A child hands the expanded tokens to `execvp`, and its aliases are as they
were. -/
theorem child_spec (tab : Tabulates defs s) (filled : Filled defs)
    {words : List CString} (laid : Laid tokens base words)
    (fits : base + (expand defs words).length < maxNrTokens) :
    child s tokens base words.length =
      .ok { argv := expand defs words, aliases := s } := by
  obtain ⟨tokens', looped, laid'⟩ :=
    addedTokens_spec tab filled words [] tokens laid (by simpa using fits)
  simp only [List.length_nil, Nat.zero_add, List.nil_append] at looped laid'
  have argv := laid'.argVector fits
  simp only [child, looped, argv, bind, Except.bind, pure, Except.pure]

end Loop

end OsPAs.Shell
