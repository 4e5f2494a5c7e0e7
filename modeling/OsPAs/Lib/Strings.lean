/-
Module: OsPAs.Lib.Strings
Purpose: C strings in their buffers, and `strtok`: which tokens its calls
  return one after the other, and how they leave the buffer.
Trusted boundary: none
Main exports: CString, strlen, Cursor, strtok, strtokAll, IsWord,
  strtokAll_words
-/
import Mathlib.Data.List.TakeWhile
import Mathlib.Tactic.Common

namespace OsPAs.Lib

/-! ### Buffers -/

/-- The terminating character. -/
def nul : Char := Char.ofNat 0

/-- The blank between words. -/
def space : Char := Char.ofNat 32

/-- The buffer of a C string, without its last character, which is NUL. -/
abbrev CString := List Char

/-- `strlen`. -/
def strlen (s : CString) : Nat := (s.takeWhile fun ch => ch ≠ nul).length

/-- The pointer that `strtok` saves: what is in front of it in the buffer, and
what follows. -/
structure Cursor where
  before : CString
  after : CString
deriving DecidableEq, Repr

/-- The character goes into a token. -/
def inToken (delims : List Char) (ch : Char) : Bool :=
  ch ∉ delims ∧ ch ≠ nul

/-- `strtok` continuing from the saved pointer: it skips delimiters, and ends
the token it finds by writing NUL over the delimiter behind it. -/
def strtok (delims : List Char) (cursor : Cursor) : Option CString × Cursor :=
  let skipped := cursor.before ++ cursor.after.takeWhile fun ch => ch ∈ delims
  let rest := cursor.after.dropWhile fun ch => ch ∈ delims
  let token := rest.takeWhile (inToken delims)
  if token = [] then (none, ⟨skipped, rest⟩)
  else
    match rest.dropWhile (inToken delims) with
    | [] => (some token, ⟨skipped ++ token, []⟩)
    | stop :: tail =>
        if stop ∈ delims then (some token, ⟨skipped ++ token ++ [nul], tail⟩)
        else (some token, ⟨skipped ++ token, stop :: tail⟩)

/-- The tokens that `strtok` returns until it returns NULL, in at most `fuel`
calls. -/
def strtokAll (delims : List Char) : Nat → Cursor → List CString × Cursor
  | 0, cursor => ([], cursor)
  | fuel + 1, cursor =>
      match strtok delims cursor with
      | (none, cursor) => ([], cursor)
      | (some token, cursor) =>
          let (tokens, cursor) := strtokAll delims fuel cursor
          (token :: tokens, cursor)

/-! ### Words -/

/-- What can be a token: not empty, without delimiters and NUL. -/
def IsWord (delims : List Char) (word : CString) : Prop :=
  word ≠ [] ∧ ∀ ch ∈ word, inToken delims ch

instance (delims : List Char) (word : CString) : Decidable (IsWord delims word) :=
  @instDecidableAnd _ _ inferInstance
    (List.decidableBAll (fun ch => inToken delims ch = true) word)

section Words

variable {delims : List Char} {word before rest : CString} {words : List CString}
  {sep : Char}

theorem inToken_iff {ch : Char} :
    inToken delims ch = true ↔ ch ∉ delims ∧ ch ≠ nul := by
  simp [inToken]

/-- A word is one for fewer delimiters. -/
theorem IsWord.of_subset {fewer : List Char} (isWord : IsWord delims word)
    (subset : fewer ⊆ delims) : IsWord fewer word := by
  refine ⟨isWord.1, fun ch member => ?_⟩
  obtain ⟨notDelim, notNul⟩ := inToken_iff.mp (isWord.2 ch member)
  exact inToken_iff.mpr ⟨fun isDelim => notDelim (subset isDelim), notNul⟩

theorem IsWord.nul_not_mem (isWord : IsWord delims word) : nul ∉ word :=
  fun member => (inToken_iff.mp (isWord.2 nul member)).2 rfl

/-- No delimiter is skipped in front of a word. -/
theorem IsWord.starts (isWord : IsWord delims word) (rest : CString) :
    (word ++ rest).takeWhile (fun ch => ch ∈ delims) = [] ∧
      (word ++ rest).dropWhile (fun ch => ch ∈ delims) = word ++ rest := by
  obtain ⟨notEmpty, chars⟩ := isWord
  cases word with
  | nil => exact absurd rfl notEmpty
  | cons first tail =>
      have notDelim := (inToken_iff.mp (chars first List.mem_cons_self)).1
      simp [notDelim]

theorem strtok_nil : strtok delims ⟨before, []⟩ = (none, ⟨before, []⟩) := by
  simp [strtok]

/-- The last word of a buffer. -/
theorem strtok_last (isWord : IsWord delims word) :
    strtok delims ⟨before, word⟩ = (some word, ⟨before ++ word, []⟩) := by
  obtain ⟨skips, keeps⟩ := isWord.starts []
  rw [List.append_nil] at skips keeps
  have all : word.takeWhile (inToken delims) = word :=
    List.takeWhile_eq_self_iff.mpr isWord.2
  have none : word.dropWhile (inToken delims) = [] :=
    List.dropWhile_eq_nil_iff.mpr isWord.2
  simp only [strtok, skips, keeps, all, none, if_neg isWord.1, List.append_nil]

/-- A word with a delimiter behind it. -/
theorem strtok_word (isWord : IsWord delims word) (isDelim : sep ∈ delims) :
    strtok delims ⟨before, word ++ sep :: rest⟩ =
      (some word, ⟨before ++ word ++ [nul], rest⟩) := by
  obtain ⟨skips, keeps⟩ := isWord.starts (sep :: rest)
  have stops : inToken delims sep = false := by
    simp [inToken, isDelim]
  have token : (word ++ sep :: rest).takeWhile (inToken delims) = word := by
    rw [List.takeWhile_append_of_pos isWord.2, List.takeWhile_cons, stops]
    simp
  have tail :
      (word ++ sep :: rest).dropWhile (inToken delims) = sep :: rest := by
    rw [List.dropWhile_append_of_pos isWord.2, List.dropWhile_cons, stops]
    simp
  simp only [strtok, skips, keeps, token, tail, if_neg isWord.1, if_pos isDelim,
    List.append_nil]

/-- The calls on words with one delimiter between any two return the words, and
leave NUL for each of the delimiters. -/
theorem strtokAll_words (isDelim : sep ∈ delims) (words : List CString)
    (areWords : ∀ word ∈ words, IsWord delims word) (before : CString)
    (fuel : Nat) (enough : words.length < fuel) :
    strtokAll delims fuel ⟨before, [sep].intercalate words⟩ =
      (words, ⟨before ++ [nul].intercalate words, []⟩) := by
  induction words generalizing before fuel with
  | nil =>
      cases fuel with
      | zero => exact absurd enough (Nat.not_lt_zero _)
      | succ fuel => simp [strtokAll, strtok_nil]
  | cons word words inductionHypothesis =>
      cases fuel with
      | zero => exact absurd enough (Nat.not_lt_zero _)
      | succ fuel =>
          have isWord := areWords word List.mem_cons_self
          have goesOn := fun before => inductionHypothesis
            (fun other member => areWords other (List.mem_cons_of_mem _ member))
            before fuel (Nat.lt_of_succ_lt_succ enough)
          cases words with
          | nil =>
              have ends := goesOn (before ++ word)
              simp only [List.intercalate_nil, List.append_nil] at ends
              simp [strtokAll, strtok_last isWord, ends]
          | cons next words =>
              rw [List.intercalate_cons_cons, List.append_assoc, strtokAll,
                List.singleton_append, strtok_word isWord isDelim]
              simp only [goesOn]
              simp

/-! ### Words with a character between them -/

theorem mem_intercalate {ch : Char} (words : List CString)
    (member : ch ∈ [sep].intercalate words) :
    ch = sep ∨ ∃ word ∈ words, ch ∈ word := by
  induction words with
  | nil => simp at member
  | cons word words inductionHypothesis =>
      cases words with
      | nil => exact Or.inr ⟨word, by simpa using member⟩
      | cons next words =>
          rw [List.intercalate_cons_cons] at member
          rcases List.mem_append.mp member with inHead | inTail
          · rcases List.mem_append.mp inHead with inWord | isSep
            · exact Or.inr ⟨word, List.mem_cons_self, inWord⟩
            · exact Or.inl (List.mem_singleton.mp isSep)
          · apply (inductionHypothesis inTail).imp id
            intro ⟨other, isWord, inOther⟩
            exact ⟨other, List.mem_cons_of_mem _ isWord, inOther⟩

theorem map_intercalate (change : Char → Char) (words : List CString) :
    ([sep].intercalate words).map change =
      [change sep].intercalate (words.map (List.map change)) := by
  induction words with
  | nil => rfl
  | cons word words inductionHypothesis =>
      cases words with
      | nil => simp
      | cons next words =>
          simp only [List.map_cons] at inductionHypothesis
          simp [List.intercalate_cons_cons, inductionHypothesis]

theorem length_le_intercalate (words : List CString)
    (notEmpty : ∀ word ∈ words, word ≠ []) :
    words.length ≤ ([sep].intercalate words).length := by
  induction words with
  | nil => exact Nat.zero_le _
  | cons word words inductionHypothesis =>
      have positive := List.length_pos_iff.mpr (notEmpty word List.mem_cons_self)
      have rest := inductionHypothesis fun other member =>
        notEmpty other (List.mem_cons_of_mem _ member)
      cases words with
      | nil => simpa using Nat.succ_le_of_lt positive
      | cons next words =>
          rw [List.intercalate_cons_cons]
          simp only [List.length_append, List.length_cons, List.length_nil]
            at rest ⊢
          omega

theorem strlen_eq_length (s : CString) (noNul : nul ∉ s) :
    strlen s = s.length := by
  have all : s.takeWhile (fun ch => ch ≠ nul) = s := by
    rw [List.takeWhile_eq_self_iff]
    intro ch member
    have notNul : ch ≠ nul := by
      rintro rfl
      exact noNul member
    simpa using notNul
  rw [strlen, all]

end Words

end OsPAs.Lib
