/-
Module: OsPAs.Sched.InPlace
Purpose: `parse_command` of `parser.c` as it works on its line: the blanks of the
  line become NUL, and the entries of `tokens` point into the line.  It finds the
  tokens that `parseCommand` lists.
Trusted boundary: none
Main exports: Pointers, Cut, parseInPlace, cutLine, kept, parseInPlace_eq,
  Cut.token, parseInPlace_token, parseCommand_eq_listed
-/
import OsPAs.Lib.Cells
import OsPAs.Lib.Strtok
import OsPAs.Sched.Loader

namespace OsPAs.Sched

open Lib

/-- The array `tokens`, with pointers as offsets into the line. -/
abbrev Pointers : Type := Fin maxTokens → Option Nat

/-- The entry of `tokens` with index `k`. -/
def tokenCell (k : Nat) : Except LoadFault (Fin maxTokens) :=
  if inside : k < maxTokens then .ok ⟨k, inside⟩ else .error .outOfRange

/-- What `parse_command` leaves in the line, in `tokens` and in `nr_tokens`, and
what it returns. -/
structure Cut where
  line : List Char
  tokens : Pointers
  nrTokens : Nat
  ret : Bool

/-- The `while` loop of `parse_command` from `curr` on; `front` is what it has
left of the line in front of it. -/
def cutTokens : List Char → List Char → Bool → Pointers → Nat →
    Except LoadFault (List Char × Pointers × Nat)
  | front, [], _, tokens, nr => .ok (front, tokens, nr)
  | front, ch :: rest, tokenStarted, tokens, nr =>
      if ch = nul then .ok (front ++ ch :: rest, tokens, nr)
      else if isSpace ch then cutTokens (front ++ [nul]) rest false tokens nr
      else if tokenStarted then cutTokens (front ++ [ch]) rest true tokens nr
      else do
        let tokens :=
          Function.update tokens (← tokenCell nr) (some front.length)
        cutTokens (front ++ [ch]) rest true tokens (nr + 1)

/-- The string that a pointer into the line points to. -/
def pointsTo (line : List Char) (pointer : Nat) : List Char :=
  upToNul (line.drop pointer)

/-- The loop of `parse_command` that removes comments, from token `i` on, of
which there are `left` more. -/
def removeComments (line : List Char) (tokens : Pointers) :
    Nat → Nat → Except LoadFault (Pointers × Nat)
  | 0, i => .ok (tokens, i)
  | left + 1, i => do
      let cell ← tokenCell i
      match tokens cell with
      | none => .error .nullPointer
      | some pointer =>
          if strncmp (pointsTo line pointer) ['#'] (strlen ['#']) then
            return (Function.update tokens cell none, i)
          else removeComments line tokens left (i + 1)

/-- `parse_command`. -/
def parseInPlace (command : List Char) (tokens : Pointers) :
    Except LoadFault Cut := do
  let (line, tokens, nr) ← cutTokens [] command false tokens 0
  let (tokens, nr) ← removeComments line tokens nr 0
  return { line := line, tokens := tokens, nrTokens := nr, ret := 0 < nr }

/-! ### The first loop -/

/-- The line with NUL for each blank of its string. -/
def cutLine : List Char → List Char
  | [] => []
  | ch :: rest =>
      if ch = nul then ch :: rest
      else (if isSpace ch then nul else ch) :: cutLine rest

/-- Where the words begin that begin at `pos` or behind it. -/
def offsets (pos : Nat) (tokenStarted : Bool) : List Char → List Nat
  | [] => []
  | ch :: rest =>
      if ch = nul then []
      else if isSpace ch then offsets (pos + 1) false rest
      else if tokenStarted then offsets (pos + 1) true rest
      else pos :: offsets (pos + 1) true rest

theorem cutTokens_eq (rest front : List Char) (tokenStarted : Bool)
    (tokens : Pointers) (nr : Nat) :
    cutTokens front rest tokenStarted tokens nr =
      (storeFrom .outOfRange tokens nr (offsets front.length tokenStarted rest)
        >>= fun tokens => .ok (front ++ cutLine rest, tokens,
          nr + (offsets front.length tokenStarted rest).length)) := by
  induction rest generalizing front tokenStarted tokens nr with
  | nil => simp [cutTokens, offsets, cutLine, storeFrom, bind, Except.bind]
  | cons ch rest inductionHypothesis =>
      rw [cutTokens, offsets, cutLine]
      by_cases isNul : ch = nul
      · simp [isNul, storeFrom, bind, Except.bind]
      rw [if_neg isNul, if_neg isNul, if_neg isNul]
      cases blank : isSpace ch with
      | true =>
          simp only [if_true]
          rw [inductionHypothesis]
          simp
      | false =>
          simp only [Bool.false_eq_true, if_false]
          cases tokenStarted with
          | true =>
              simp only [if_true]
              rw [inductionHypothesis]
              simp
          | false =>
              simp only [Bool.false_eq_true, if_false, storeFrom, tokenCell]
              split
              · have ends : (front ++ [ch]).length = front.length + 1 := by simp
                simp only [bind, Except.bind] at inductionHypothesis ⊢
                rw [inductionHypothesis, ends]
                simp [Nat.add_assoc, Nat.add_comm 1]
              · rfl

/-- What is left of the line ends where its first word ends. -/
theorem upToNul_cutLine (line : List Char) :
    upToNul (cutLine line) =
      (content line).takeWhile fun ch => !isSpace ch := by
  induction line with
  | nil => rfl
  | cons ch rest inductionHypothesis =>
      rw [cutLine]
      by_cases isNul : ch = nul
      · simp [isNul, upToNul, content]
      rw [if_neg isNul, content_cons isNul]
      cases blank : isSpace ch with
      | true => simp [upToNul, blank]
      | false =>
          rw [if_neg (by simp), upToNul_cons isNul, inductionHypothesis,
            List.takeWhile_cons_of_pos (by simp [blank])]

/-- The words that begin at or behind a place of the line are the strings there;
within a word, the rest of it is none of them. -/
theorem offsets_point (rest front : List Char) (tokenStarted : Bool) :
    List.Forall₂ (fun pointer word =>
        pointsTo (front ++ cutLine rest) pointer = word)
      (offsets front.length tokenStarted rest)
      (words isSpace (if tokenStarted then
        (content rest).dropWhile fun ch => !isSpace ch else content rest)) := by
  induction rest generalizing front tokenStarted with
  | nil => simp [offsets, content, words_nil]
  | cons ch rest inductionHypothesis =>
      have goesOn (ch' : Char) (started : Bool) :=
        inductionHypothesis (front ++ [ch']) started
      simp only [List.length_append, List.length_singleton, List.append_assoc,
        List.singleton_append] at goesOn
      rw [offsets, cutLine]
      by_cases isNul : ch = nul
      · simp [isNul, content, words_nil]
      rw [if_neg isNul, if_neg isNul, content_cons isNul]
      cases blank : isSpace ch with
      | true =>
          have words := goesOn nul false
          simpa [blank, words_cons_blank blank] using words
      | false =>
          cases tokenStarted with
          | true =>
              have words := goesOn ch true
              simpa [blank] using words
          | false =>
              have words := goesOn ch true
              simp only [Bool.false_eq_true, if_false, words_cons_solid blank]
              refine .cons ?_ (by simpa using words)
              rw [pointsTo, List.drop_left, upToNul_cons isNul, upToNul_cutLine]

/-! ### The second loop -/

theorem strncmp_comment {word : List Char} (noNul : nul ∉ word) :
    strncmp word ['#'] (strlen ['#']) = true ↔ word.head? = some '#' := by
  have one : strlen ['#'] = 1 := by decide
  have mark : (content ['#']).take 1 = ['#'] := by decide
  rw [strncmp, one, mark, decide_eq_true_eq]
  cases word with
  | nil => simp [content]
  | cons ch rest =>
      have notNul : ch ≠ nul := by
        rintro rfl
        exact noNul List.mem_cons_self
      rw [content_cons notNul]
      simp

/-- The pointers from entry `i` on point to the words. -/
def PointTo (line : List Char) (tokens : Pointers) (i : Nat)
    (words : List (List Char)) : Prop :=
  ∀ k word, words[k]? = some word → ∃ (inside : i + k < maxTokens) (pointer : Nat),
    tokens ⟨i + k, inside⟩ = some pointer ∧ pointsTo line pointer = word

theorem PointTo.tail {line : List Char} {tokens : Pointers} {i : Nat}
    {word : List Char} {words : List (List Char)}
    (points : PointTo line tokens i (word :: words)) :
    PointTo line tokens (i + 1) words := by
  intro k other found
  obtain ⟨inside, pointer, isPointer, isWord⟩ := points (k + 1) other (by simpa)
  have index : i + 1 + k = i + (k + 1) := by omega
  simp only [index]
  exact ⟨inside, pointer, isPointer, isWord⟩

theorem PointTo.head {line : List Char} {tokens : Pointers} {i : Nat}
    {word : List Char} {words : List (List Char)}
    (points : PointTo line tokens i (word :: words)) :
    ∃ (inside : i < maxTokens) (pointer : Nat),
      tokens ⟨i, inside⟩ = some pointer ∧ pointsTo line pointer = word :=
  points 0 word rfl

/-- The words up to the one that begins a comment. -/
def kept (words : List (List Char)) : List (List Char) :=
  words.takeWhile fun word => word.head? ≠ some '#'

theorem isPrefix_kept (words : List (List Char)) : kept words <+: words :=
  List.takeWhile_prefix _

theorem length_kept_le (words : List (List Char)) :
    (kept words).length ≤ words.length :=
  (isPrefix_kept words).length_le

/-- Removing comments cuts the tokens off at the first word that begins one. -/
theorem removeComments_eq {line : List Char} {tokens : Pointers}
    (words : List (List Char)) (i : Nat) (points : PointTo line tokens i words) :
    removeComments line tokens words.length i = .ok (fun k =>
      if k.val = i + (kept words).length ∧ (kept words).length < words.length
        then none else tokens k, i + (kept words).length) := by
  induction words generalizing i with
  | nil => simp [removeComments, kept]
  | cons word words inductionHypothesis =>
      obtain ⟨inside, pointer, isPointer, isWord⟩ := points.head
      have noNul : nul ∉ word := isWord ▸ nul_not_mem_upToNul _
      rw [List.length_cons, removeComments, tokenCell, dif_pos inside]
      simp only [bind, Except.bind, isPointer, isWord]
      by_cases comment : word.head? = some '#'
      · have none : kept (word :: words) = [] :=
          List.takeWhile_cons_of_neg (by simpa using comment)
        rw [if_pos ((strncmp_comment noNul).mpr comment), none]
        simp only [pure, Except.pure, Except.ok.injEq, Prod.mk.injEq,
          List.length_nil, Nat.add_zero, and_true, Nat.zero_lt_succ]
        funext k
        rw [Function.update_apply]
        congr 1
        exact propext Fin.ext_iff
      · have stays : kept (word :: words) = word :: kept words :=
          List.takeWhile_cons_of_pos (by simpa using comment)
        have number : i + 1 + (kept words).length =
            i + ((kept words).length + 1) := by omega
        rw [if_neg (mt (strncmp_comment noNul).mp comment),
          inductionHypothesis (i + 1) points.tail, stays, List.length_cons, number]
        simp only [Nat.add_lt_add_iff_right]

/-! ### The result -/

section Result

variable {command : List Char} {tokens : Pointers}

theorem offsets_length (command : List Char) :
    (offsets 0 false command).length =
      (words isSpace (content command)).length :=
  (offsets_point command [] false).length_eq

/-- The pointers that the first loop stores. -/
theorem pointTo_stored (tokens : Pointers)
    (fits : (words isSpace (content command)).length ≤ maxTokens) :
    PointTo (cutLine command) (stored tokens 0 (offsets 0 false command)) 0
      (words isSpace (content command)) := by
  have points := offsets_point command [] false
  rw [List.forall₂_iff_get] at points
  obtain ⟨sameLength, each⟩ := points
  intro k word found
  obtain ⟨inWords, isWord⟩ := List.getElem?_eq_some_iff.mp found
  have inOffsets : k < (offsets 0 false command).length := by
    rw [offsets_length]
    exact inWords
  have inside : 0 + k < maxTokens := by omega
  refine ⟨inside, (offsets 0 false command)[k], ?_, ?_⟩
  · rw [stored, if_pos (by simpa using inOffsets)]
    simp
  · rw [← isWord]
    exact each k inOffsets inWords

/-- `parse_command` cuts the line up, counts the words in front of the comment,
and points to them; the entry of the word that begins the comment is NULL. -/
theorem parseInPlace_eq (command : List Char) (tokens : Pointers) :
    parseInPlace command tokens =
      if (words isSpace (content command)).length ≤ maxTokens then .ok {
        line := cutLine command
        tokens := fun k =>
          if k.val = (kept (words isSpace (content command))).length ∧
              (kept (words isSpace (content command))).length <
                (words isSpace (content command)).length then none
          else stored tokens 0 (offsets 0 false command) k
        nrTokens := (kept (words isSpace (content command))).length
        ret := 0 < (kept (words isSpace (content command))).length }
      else .error .outOfRange := by
  rw [parseInPlace, cutTokens_eq]
  simp only [List.length_nil, List.nil_append, Nat.zero_add,
    storeFrom_eq (offsets 0 false command) (Nat.zero_le _), offsets_length]
  split
  · rename_i fits
    have removed := removeComments_eq _ 0 (pointTo_stored tokens fits)
    simp only [Nat.zero_add] at removed
    simp only [bind, Except.bind, removed]
    rfl
  · rfl

/-- The string that entry `k` points to, if it is one of the tokens. -/
def Cut.token (cut : Cut) (k : Fin maxTokens) : Option (List Char) :=
  if k.val < cut.nrTokens then (cut.tokens k).map (pointsTo cut.line) else none

/-- The entries point to the words in front of the comment. -/
theorem parseInPlace_token {cut : Cut}
    (parsed : parseInPlace command tokens = .ok cut) (k : Fin maxTokens) :
    cut.token k = (kept (words isSpace (content command)))[k.val]? := by
  rw [parseInPlace_eq] at parsed
  split at parsed
  · rename_i fits
    obtain rfl := Except.ok.inj parsed
    simp only [Cut.token]
    split
    · rename_i inside
      have inWords : k.val < (words isSpace (content command)).length :=
        Nat.lt_of_lt_of_le inside (length_kept_le _)
      obtain ⟨_, pointer, isPointer, isWord⟩ := pointTo_stored tokens fits k.val _
        (List.getElem?_eq_getElem inWords)
      simp only [Nat.zero_add, Fin.eta] at isPointer
      rw [if_neg (by omega), isPointer, Option.map_some, isWord,
        List.getElem?_eq_getElem inside]
      exact congrArg some ((isPrefix_kept _).getElem inside).symm
    · rename_i outside
      rw [List.getElem?_eq_none (Nat.le_of_not_lt outside)]
  · simp at parsed

/-- The tokens in the line are those that `parseCommand` lists. -/
theorem parseCommand_eq_listed (command : List Char) (tokens : Pointers) :
    parseCommand command =
      (parseInPlace command tokens >>= fun cut => .ok (listed cut.token)) := by
  rw [parseCommand_eq]
  split
  · rename_i fits
    have parsed := parseInPlace_eq command tokens
    rw [if_pos fits] at parsed
    have short : (kept (words isSpace (content command))).length ≤ maxTokens :=
      Nat.le_trans (length_kept_le _) fits
    rw [parsed]
    simp only [bind, Except.bind]
    rw [funext (parseInPlace_token parsed), listed_getElem? short]
    rfl
  · rename_i full
    rw [parseInPlace_eq, if_neg full]
    rfl

end Result

end OsPAs.Sched
