/-
Module: OsPAs.Lib.Strtok
Purpose: `strtok` on any text: its calls return the words of the string, which
  ends at the first NUL, one after the other.
Trusted boundary: none
Main exports: isDelim, upToNul, strtok_of_nil, strtok_of_cons,
  isWord_of_mem_words
-/
import OsPAs.Lib.Strings
import OsPAs.Lib.Words

namespace OsPAs.Lib

/-- The character is one of the delimiters. -/
def isDelim (delims : List Char) (ch : Char) : Bool := ch ∈ delims

/-- The string in a buffer. -/
def upToNul (buffer : List Char) : List Char :=
  buffer.takeWhile fun ch => ch ≠ nul

variable {delims text : List Char} {cursor : Cursor} {ch : Char}

theorem upToNul_cons (notNul : ch ≠ nul) (text : List Char) :
    upToNul (ch :: text) = ch :: upToNul text := by
  simp [upToNul, notNul]

theorem upToNul_nul (text : List Char) : upToNul (nul :: text) = [] := by
  simp [upToNul]

theorem upToNul_eq_self (noNul : nul ∉ text) : upToNul text = text := by
  rw [upToNul, List.takeWhile_eq_self_iff]
  intro ch member
  have notNul : ch ≠ nul := by
    rintro rfl
    exact noNul member
  simpa using notNul

theorem nul_not_mem_upToNul (text : List Char) : nul ∉ upToNul text := by
  intro member
  simpa using List.mem_takeWhile_imp member

/-- Delimiters in front of the string are skipped. -/
theorem words_upToNul_skip (proper : nul ∉ delims) (text : List Char) :
    words (isDelim delims) (upToNul text) = words (isDelim delims)
      (upToNul (text.dropWhile fun ch => ch ∈ delims)) := by
  induction text with
  | nil => rfl
  | cons ch text inductionHypothesis =>
      by_cases member : ch ∈ delims
      · have notNul : ch ≠ nul := by
          rintro rfl
          exact proper member
        rw [upToNul_cons notNul,
          words_cons_blank (by simpa [isDelim] using member),
          List.dropWhile_cons_of_pos (by simpa using member)]
        exact inductionHypothesis
      · rw [List.dropWhile_cons_of_neg (by simpa using member)]

/-- A token ends where the word in the string ends. -/
theorem takeWhile_upToNul (text : List Char) :
    (upToNul text).takeWhile (fun ch => !isDelim delims ch) =
      text.takeWhile (inToken delims) := by
  rw [upToNul, List.takeWhile_takeWhile]
  congr 1
  funext ch
  simp [inToken, isDelim]

theorem dropWhile_upToNul (text : List Char) :
    (upToNul text).dropWhile (fun ch => !isDelim delims ch) =
      upToNul (text.dropWhile (inToken delims)) := by
  induction text with
  | nil => rfl
  | cons ch text inductionHypothesis =>
      by_cases isNul : ch = nul
      · subst isNul
        have outside : inToken delims nul = false := by simp [inToken]
        rw [upToNul_nul, List.dropWhile_cons_of_neg (by simp [outside]),
          upToNul_nul]
        rfl
      · rw [upToNul_cons isNul]
        by_cases member : ch ∈ delims
        · rw [List.dropWhile_cons_of_neg (by simpa [isDelim] using member),
            List.dropWhile_cons_of_neg (by simp [inToken, member]),
            upToNul_cons isNul]
        · rw [List.dropWhile_cons_of_pos (by simpa [isDelim] using member),
            List.dropWhile_cons_of_pos (by simp [inToken, member, isNul]),
            inductionHypothesis]

/-- Without a word in the string, `strtok` returns NULL. -/
theorem strtok_of_nil (proper : nul ∉ delims)
    (none : words (isDelim delims) (upToNul cursor.after) = []) :
    ∃ cursor', strtok delims cursor = (.none, cursor') := by
  rw [words_upToNul_skip proper] at none
  have token : (cursor.after.dropWhile fun ch => ch ∈ delims).takeWhile
      (inToken delims) = [] := by
    have head :=
      List.head?_dropWhile_not (fun ch => decide (ch ∈ delims)) cursor.after
    cases rest : cursor.after.dropWhile fun ch => ch ∈ delims with
    | nil => rfl
    | cons ch rest' =>
        rw [rest] at head none
        by_cases isNul : ch = nul
        · subst isNul
          simp [inToken]
        · rw [upToNul_cons isNul,
            words_cons_solid (by simpa [isDelim] using head)] at none
          simp at none
  rw [strtok]
  exact ⟨_, if_pos token⟩

/-- Else it returns the first word and goes on behind it. -/
theorem strtok_of_cons (proper : nul ∉ delims) {word : List Char}
    {more : List (List Char)}
    (found : words (isDelim delims) (upToNul cursor.after) = word :: more) :
    ∃ cursor', strtok delims cursor = (some word, cursor') ∧
      words (isDelim delims) (upToNul cursor'.after) = more := by
  rw [words_upToNul_skip proper] at found
  have head :=
    List.head?_dropWhile_not (fun ch => decide (ch ∈ delims)) cursor.after
  cases restEq : cursor.after.dropWhile fun ch => ch ∈ delims with
  | nil =>
      rw [restEq] at found
      simp [upToNul, words_nil] at found
  | cons ch rest =>
      rw [restEq] at head found
      by_cases isNul : ch = nul
      · subst isNul
        rw [upToNul_nul, words_nil] at found
        simp at found
      have notDelim : ch ∉ delims := by simpa using head
      have isIn : inToken delims ch = true := inToken_iff.mpr ⟨notDelim, isNul⟩
      rw [upToNul_cons isNul, words_cons_solid (by simpa [isDelim] using notDelim),
        takeWhile_upToNul, dropWhile_upToNul] at found
      obtain ⟨isWord, isMore⟩ := List.cons.inj found
      have token : (ch :: rest).takeWhile (inToken delims) = word := by
        rw [List.takeWhile_cons_of_pos isIn, isWord]
      have notEmpty : word ≠ [] := by
        rw [← isWord]
        exact List.cons_ne_nil _ _
      rw [strtok]
      simp only [restEq, token, if_neg notEmpty]
      rw [List.dropWhile_cons_of_pos isIn]
      cases behind : rest.dropWhile (inToken delims) with
      | nil =>
          rw [behind] at isMore
          exact ⟨_, rfl, isMore⟩
      | cons stop tail =>
          rw [behind] at isMore
          by_cases member : stop ∈ delims
          · have notNul : stop ≠ nul := by
              rintro rfl
              exact proper member
            rw [upToNul_cons notNul,
              words_cons_blank (by simpa [isDelim] using member)] at isMore
            exact ⟨_, if_pos member, isMore⟩
          · exact ⟨_, if_neg member, isMore⟩

/-- The words of a string can be tokens. -/
theorem isWord_of_mem_words {word : List Char}
    (member : word ∈ words (isDelim delims) (upToNul text)) :
    IsWord delims word := by
  refine ⟨ne_nil_of_mem_words member, fun ch inWord => ?_⟩
  obtain ⟨solid, inText⟩ := of_mem_words member ch inWord
  refine inToken_iff.mpr ⟨by simpa [isDelim] using solid, ?_⟩
  rintro rfl
  exact nul_not_mem_upToNul text inText

end OsPAs.Lib
