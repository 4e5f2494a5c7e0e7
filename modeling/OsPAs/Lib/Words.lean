/-
Module: OsPAs.Lib.Words
Purpose: The words of a text: the longest pieces without blanks.  A line that
  is laid out from words, blanks and a comment has these words.
Trusted boundary: none
Main exports: words, words_append_blank, words_of_word, text_induction,
  words_map, length_words_le, of_mem_words, LineOf, LineOf.words_takeWhile, lineOf_words
-/
import Mathlib.Data.List.TakeWhile
import Mathlib.Tactic.Common

namespace OsPAs.Lib

variable {α : Type} {isBlank : α → Bool}

/-- The words of a text, in order. -/
def words (isBlank : α → Bool) (text : List α) : List (List α) :=
  (text.splitOnP isBlank).filter fun word => word ≠ []

theorem words_nil : words isBlank ([] : List α) = [] := by
  simp [words, List.splitOnP_nil]

theorem ne_nil_of_mem_words {text word : List α}
    (member : word ∈ words isBlank text) : word ≠ [] := by
  simpa using (List.mem_filter.mp member).2

/-- No word crosses a blank. -/
theorem words_append_blank {blank : α} (isIt : isBlank blank = true)
    (before after : List α) :
    words isBlank (before ++ blank :: after) =
      words isBlank before ++ words isBlank after := by
  unfold words
  rw [List.splitOnP_append_cons before after isIt, List.filter_append]

theorem words_cons_blank {blank : α} (isIt : isBlank blank = true)
    (text : List α) : words isBlank (blank :: text) = words isBlank text := by
  have split := words_append_blank isIt [] text
  rwa [words_nil] at split

/-- Blanks in front of a text make no difference. -/
theorem words_blanks_append {gap : List α} (blanks : ∀ ch ∈ gap, isBlank ch)
    (text : List α) : words isBlank (gap ++ text) = words isBlank text := by
  induction gap with
  | nil => rfl
  | cons blank gap inductionHypothesis =>
      rw [List.cons_append, words_cons_blank (blanks blank List.mem_cons_self)]
      exact inductionHypothesis fun ch member =>
        blanks ch (List.mem_cons_of_mem blank member)

theorem words_of_blanks {gap : List α} (blanks : ∀ ch ∈ gap, isBlank ch) :
    words isBlank gap = [] := by
  rw [← List.append_nil gap, words_blanks_append blanks, words_nil]

/-- A text without blanks is a word. -/
theorem words_of_word {word : List α} (notEmpty : word ≠ [])
    (solid : ∀ ch ∈ word, isBlank ch = false) : words isBlank word = [word] := by
  unfold words
  rw [List.splitOnP_eq_singleton solid]
  simp [notEmpty]

/-- The text goes on with a blank, or ends. -/
def Breaks (isBlank : α → Bool) (text : List α) : Prop :=
  ∀ ch ∈ text.head?, isBlank ch = true

/-- A word in front of a text that begins with a blank. -/
theorem words_word_append {word text : List α} (notEmpty : word ≠ [])
    (solid : ∀ ch ∈ word, isBlank ch = false) (breaks : Breaks isBlank text) :
    words isBlank (word ++ text) = word :: words isBlank text := by
  cases text with
  | nil => rw [List.append_nil, words_of_word notEmpty solid, words_nil]
  | cons blank text =>
      have isIt := breaks blank rfl
      rw [words_append_blank isIt, words_of_word notEmpty solid,
        words_cons_blank isIt]
      rfl

/-- The word at the front of a text has no blanks. -/
theorem solid_cons_takeWhile {ch : α} (solid : isBlank ch = false)
    (text : List α) : ∀ other ∈ ch :: text.takeWhile fun ch => !isBlank ch,
      isBlank other = false := by
  intro other member
  rcases List.mem_cons.mp member with rfl | inWord
  · exact solid
  · simpa using List.mem_takeWhile_imp inWord

/-- A blank ends it. -/
theorem breaks_dropWhile (text : List α) :
    Breaks isBlank (text.dropWhile fun ch => !isBlank ch) := by
  intro ch isHead
  have stops := List.head?_dropWhile_not (fun ch => !isBlank ch) text
  rw [Option.mem_def.mp isHead] at stops
  simpa using stops

/-- A text that does not begin with a blank begins with a word. -/
theorem words_cons_solid {ch : α} (solid : isBlank ch = false)
    (text : List α) :
    words isBlank (ch :: text) =
      (ch :: text.takeWhile fun ch => !isBlank ch) ::
        words isBlank (text.dropWhile fun ch => !isBlank ch) := by
  have split := words_word_append (List.cons_ne_nil _ _)
    (solid_cons_takeWhile solid text) (breaks_dropWhile text)
  rwa [List.cons_append, List.takeWhile_append_dropWhile] at split

/-- Induction over a text, blank by blank and word by word. -/
theorem text_induction (isBlank : α → Bool) {motive : List α → Prop}
    (nil : motive [])
    (blank : ∀ ch text, isBlank ch = true → motive text → motive (ch :: text))
    (word : ∀ ch text, isBlank ch = false →
      motive (text.dropWhile fun ch => !isBlank ch) → motive (ch :: text))
    (text : List α) : motive text := by
  induction lengthEq : text.length using Nat.strong_induction_on
    generalizing text with
  | _ length inductionHypothesis =>
  cases text with
  | nil => exact nil
  | cons ch text =>
      rw [List.length_cons] at lengthEq
      cases isIt : isBlank ch with
      | true => exact blank ch text isIt (inductionHypothesis _ (by omega) text rfl)
      | false =>
          have short := List.length_dropWhile_le (fun ch => !isBlank ch) text
          exact word ch text isIt (inductionHypothesis _ (by omega) _ rfl)

/-- Words of a text in which characters are replaced, blanks by blanks and others
by others. -/
theorem words_map {f : α → α} (keeps : ∀ ch, isBlank (f ch) = isBlank ch)
    (text : List α) :
    words isBlank (text.map f) = (words isBlank text).map (List.map f) := by
  have same : ((fun ch => !isBlank ch) ∘ f) = fun ch => !isBlank ch :=
    funext fun ch => congrArg not (keeps ch)
  induction text using text_induction isBlank with
  | nil => simp [words_nil]
  | blank ch text isIt inductionHypothesis =>
      rw [List.map_cons, words_cons_blank ((keeps ch).trans isIt),
        words_cons_blank isIt, inductionHypothesis]
  | word ch text solid inductionHypothesis =>
      rw [List.map_cons, words_cons_solid ((keeps ch).trans solid),
        words_cons_solid solid, List.takeWhile_map, List.dropWhile_map, same,
        inductionHypothesis, List.map_cons, List.map_cons]

/-- Each word takes a character of the text. -/
theorem length_words_le (text : List α) :
    (words isBlank text).length ≤ text.length := by
  induction text using text_induction isBlank with
  | nil => simp [words_nil]
  | blank ch text isIt inductionHypothesis =>
      rw [words_cons_blank isIt]
      exact Nat.le_succ_of_le inductionHypothesis
  | word ch text solid inductionHypothesis =>
      rw [words_cons_solid solid]
      exact Nat.succ_le_succ
        (inductionHypothesis.trans (List.length_dropWhile_le _ text))

/-- A word is made of characters of the text that are not blank. -/
theorem of_mem_words {text word : List α} (member : word ∈ words isBlank text) :
    ∀ ch ∈ word, isBlank ch = false ∧ ch ∈ text := by
  induction text using text_induction isBlank with
  | nil => simp [words_nil] at member
  | blank ch text isIt inductionHypothesis =>
      rw [words_cons_blank isIt] at member
      exact fun other inWord => (inductionHypothesis member other inWord).imp_right
        (List.mem_cons_of_mem ch)
  | word ch text solid inductionHypothesis =>
      rw [words_cons_solid solid] at member
      rcases List.mem_cons.mp member with rfl | later
      · intro other inWord
        refine ⟨solid_cons_takeWhile solid text other inWord, ?_⟩
        exact (List.cons_subset_cons ch (List.takeWhile_subset _)) inWord
      · intro other inWord
        have inRest := inductionHypothesis later other inWord
        exact inRest.imp_right fun inDrop =>
          List.mem_cons_of_mem ch ((List.dropWhile_subset _) inDrop)

/-! ### Lines -/

/-- The line has the given words with blanks between them and around them, and
perhaps a comment behind them, separate from the last word. -/
inductive LineOf (isBlank : α → Bool) (mark : α) :
    List (List α) → List α → Prop where
  | blank {gap : List α} (blanks : ∀ ch ∈ gap, isBlank ch = true) :
      LineOf isBlank mark [] gap
  | comment {gap text : List α} (blanks : ∀ ch ∈ gap, isBlank ch = true) :
      LineOf isBlank mark [] (gap ++ mark :: text)
  | word {gap word line : List α} {rest : List (List α)}
      (blanks : ∀ ch ∈ gap, isBlank ch = true) (notEmpty : word ≠ [])
      (solid : ∀ ch ∈ word, isBlank ch = false)
      (notComment : word.head? ≠ some mark) (breaks : Breaks isBlank line)
      (later : LineOf isBlank mark rest line) :
      LineOf isBlank mark (word :: rest) (gap ++ (word ++ line))

section Lines

variable {mark : α} {laid : List (List α)} {line : List α}

/-- What a character that is neither a blank nor in a word ends, ends within the
comment. -/
theorem LineOf.takeWhile {inLine : α → Bool}
    (isLine : LineOf isBlank mark laid line)
    (blanksIn : ∀ ch, isBlank ch = true → inLine ch = true)
    (wordsIn : ∀ word ∈ laid, ∀ ch ∈ word, inLine ch = true)
    (markIn : inLine mark = true) :
    LineOf isBlank mark laid (line.takeWhile inLine) := by
  induction isLine with
  | @blank gap blanks =>
      rw [List.takeWhile_eq_self_iff.mpr fun ch member =>
        blanksIn ch (blanks ch member)]
      exact .blank blanks
  | @comment gap text blanks =>
      rw [List.takeWhile_append_of_pos fun ch member =>
          blanksIn ch (blanks ch member),
        List.takeWhile_cons, if_pos markIn]
      exact .comment blanks
  | @word gap word line rest blanks notEmpty solid notComment breaks _
      inductionHypothesis =>
      rw [List.takeWhile_append_of_pos fun ch member =>
          blanksIn ch (blanks ch member),
        List.takeWhile_append_of_pos (wordsIn word List.mem_cons_self)]
      refine .word blanks notEmpty solid notComment ?_
        (inductionHypothesis fun other member =>
          wordsIn other (List.mem_cons_of_mem word member))
      intro ch isHead
      cases line with
      | nil => simp at isHead
      | cons first line =>
          rw [List.takeWhile_cons] at isHead
          split at isHead
          · exact breaks ch isHead
          · simp at isHead

/-- The words of the line, up to the one that begins the comment. -/
theorem LineOf.words_takeWhile [DecidableEq α] (solidMark : isBlank mark = false)
    (isLine : LineOf isBlank mark laid line) :
    (words isBlank line).takeWhile (fun word => word.head? ≠ some mark) =
      laid := by
  induction isLine with
  | blank blanks => rw [words_of_blanks blanks, List.takeWhile_nil]
  | @comment gap text blanks =>
      rw [words_blanks_append blanks, words_cons_solid solidMark,
        List.takeWhile_cons]
      simp
  | word blanks notEmpty solid notComment breaks _ inductionHypothesis =>
      rw [words_blanks_append blanks, words_word_append notEmpty solid breaks,
        List.takeWhile_cons, if_pos (by simpa using notComment),
        inductionHypothesis]

/-- A blank in front of the line. -/
theorem LineOf.cons_blank {blank : α} (isIt : isBlank blank = true)
    (isLine : LineOf isBlank mark laid line) :
    LineOf isBlank mark laid (blank :: line) := by
  have blanks {gap : List α} (rest : ∀ ch ∈ gap, isBlank ch = true) :
      ∀ ch ∈ blank :: gap, isBlank ch = true :=
    List.forall_mem_cons.mpr ⟨isIt, rest⟩
  cases isLine with
  | blank rest => exact .blank (blanks rest)
  | comment rest => exact .comment (blanks rest)
  | word rest notEmpty solid notComment breaks later =>
      exact .word (blanks rest) notEmpty solid notComment breaks later

/-- Every line is laid out from some words. -/
theorem lineOf_words [DecidableEq α] (line : List α) :
    LineOf isBlank mark
      ((words isBlank line).takeWhile fun word => word.head? ≠ some mark)
      line := by
  induction line using text_induction isBlank with
  | nil =>
      rw [words_nil]
      exact .blank (by simp)
  | blank ch line isIt inductionHypothesis =>
      rw [words_cons_blank isIt]
      exact inductionHypothesis.cons_blank isIt
  | word ch line solid inductionHypothesis =>
      rw [words_cons_solid solid, List.takeWhile_cons]
      by_cases isMark : ch = mark
      · subst isMark
        rw [if_neg (by simp)]
        exact show LineOf isBlank ch [] ([] ++ ch :: line) from
          .comment (by simp)
      · have word : LineOf isBlank mark (_ :: _) ([] ++ (_ ++ _)) :=
          .word (by simp) (List.cons_ne_nil _ _)
            (solid_cons_takeWhile solid line) (by simpa using isMark)
            (breaks_dropWhile line) inductionHypothesis
        rw [List.nil_append, List.cons_append,
          List.takeWhile_append_dropWhile] at word
        rw [if_pos (by simpa using isMark)]
        exact word

end Lines

end OsPAs.Lib
