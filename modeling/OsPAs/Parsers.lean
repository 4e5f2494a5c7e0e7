/-
Module: OsPAs.Parsers
Purpose: The two functions `parse_command`, that of the shell and that of the two
  simulators, find the runs of non-blank characters of the line; the second one
  stops in front of a comment.
Trusted boundary: none
Main exports: isDelim_delimiters, runs_eq, parsers_find_runs
-/
import OsPAs.Sched.InPlace
import OsPAs.Shell.Parser

namespace OsPAs

open Lib Sched

/-- The delimiters of the shell are what the simulators take for blanks. -/
theorem isDelim_delimiters : isDelim Shell.delimiters = isSpace := by
  funext ch
  rw [isDelim, isSpace, decide_eq_decide]
  simp only [Shell.delimiters, List.map_cons, List.map_nil, List.mem_cons,
    List.not_mem_nil, or_false, ← Char.toNat_inj]
  change ch.toNat = 32 ∨ ch.toNat = 9 ∨ ch.toNat = 13 ∨ ch.toNat = 12 ∨
    ch.toNat = 10 ∨ ch.toNat = 11 ↔ _
  omega

theorem runs_eq {line : List Char} (noNul : nul ∉ line) :
    Shell.runs line = words isSpace line := by
  rw [Shell.runs, isDelim_delimiters, upToNul_eq_self noNul]

/-- NUL ends the string that a pointer into the line points to, a NUL of the line
or the one behind it. -/
theorem pointsTo_ends {line word : List Char} {pointer : Nat}
    (notEmpty : word ≠ []) (isWord : pointsTo line pointer = word) :
    ∃ tail, (line ++ [nul]).drop pointer = word ++ nul :: tail := by
  have inside : pointer ≤ line.length := by
    by_contra outside
    apply notEmpty
    rw [← isWord, pointsTo, List.drop_of_length_le (by omega)]
    rfl
  rw [List.drop_append_of_le_length inside, ← isWord]
  have split := List.takeWhile_append_dropWhile (p := fun ch => ch ≠ nul)
    (l := line.drop pointer)
  have head := List.head?_dropWhile_not (fun ch => decide (ch ≠ nul))
    (line.drop pointer)
  cases rest : (line.drop pointer).dropWhile fun ch => ch ≠ nul with
  | nil =>
      rw [rest, List.append_nil] at split
      have whole : pointsTo line pointer = line.drop pointer := split
      exact ⟨[], by rw [whole]⟩
  | cons ch tail =>
      rw [rest] at head split
      obtain rfl : ch = nul := by simpa using head
      refine ⟨tail ++ [nul], ?_⟩
      rw [pointsTo, upToNul]
      conv_lhs => rw [← split]
      rw [List.append_assoc]
      rfl

/-- On a line without NUL and with at most 31 runs of non-blank characters the
shell's parser stores the runs, with NULL behind them.  That of the simulators
points to those in front of the first run that begins with `#`, ends each with
NUL, and returns 1 exactly if there are any.  Without such a run both find the
same. -/
theorem parsers_find_runs (line : List Char) (noNul : nul ∉ line)
    (few : (words isSpace line).length ≤ 31) (tokens : Pointers) :
    ∃ (parsed : Shell.Parsed) (cut : Cut),
      Shell.parseCommand line = .ok parsed ∧
      parsed.nrTokens = (words isSpace line).length ∧
      (∀ k, parsed.tokens k = (words isSpace line)[k.val]?) ∧
      parseInPlace line tokens = .ok cut ∧
      cut.nrTokens = (kept (words isSpace line)).length ∧
      (∀ k word, (kept (words isSpace line))[k]? = some word →
        ∃ (inside : k < maxTokens) (pointer : Nat) (tail : List Char),
          cut.tokens ⟨k, inside⟩ = some pointer ∧
          (cut.line ++ [nul]).drop pointer = word ++ nul :: tail) ∧
      (cut.ret = true ↔ kept (words isSpace line) ≠ []) ∧
      ((∀ word ∈ words isSpace line, word.head? ≠ some '#') →
        cut.nrTokens = parsed.nrTokens ∧ cut.ret = parsed.ret ∧
          ∀ k, cut.token k = parsed.tokens k) := by
  have string : content line = line := upToNul_eq_self noNul
  have shell := Shell.parseCommand_eq line
  rw [runs_eq noNul, if_pos (Nat.lt_of_le_of_lt few (by decide))] at shell
  have fits : (words isSpace (content line)).length ≤ maxTokens := by
    rw [string]
    exact Nat.le_trans few (by decide)
  have inPlace := parseInPlace_eq line tokens
  rw [if_pos fits] at inPlace
  have token := parseInPlace_token inPlace
  have points := pointTo_stored tokens fits
  rw [string] at inPlace token points
  refine ⟨_, _, shell, rfl, fun k => rfl, inPlace, rfl, fun k word found => ?_, ?_,
    fun noComment => ?_⟩
  · obtain ⟨inKept, isWord⟩ := List.getElem?_eq_some_iff.mp found
    have inWords := Nat.lt_of_lt_of_le inKept (length_kept_le _)
    rw [(isPrefix_kept _).getElem inKept] at isWord
    obtain ⟨inside, pointer, isPointer, pointed⟩ :=
      points k word (List.getElem?_eq_some_iff.mpr ⟨inWords, isWord⟩)
    simp only [Nat.zero_add] at inside isPointer
    have notEmpty : word ≠ [] :=
      ne_nil_of_mem_words (isWord ▸ List.getElem_mem inWords)
    obtain ⟨tail, ends⟩ := pointsTo_ends notEmpty pointed
    have notEnd : k ≠ (kept (words isSpace line)).length := Nat.ne_of_lt inKept
    refine ⟨inside, pointer, tail, ?_, ends⟩
    simp only [notEnd, false_and, if_false]
    exact isPointer
  · exact decide_eq_true_iff.trans List.length_pos_iff
  · have all : kept (words isSpace line) = words isSpace line :=
      List.takeWhile_eq_self_iff.mpr (by simpa using noComment)
    refine ⟨?_, ?_, fun k => ?_⟩
    · simp only [all]
    · simp only [all]
    · rw [token, all]

/-- A line with two words, a comment, and a blank at either end. -/
def commentedLine : List Char := [' ', 'a', 'b', '\t', 'c', ' ', '#', 'd', '\n']

theorem parsers_find_runs_commentedLine :
    ∃ (parsed : Shell.Parsed) (cut : Cut),
      Shell.parseCommand commentedLine = .ok parsed ∧ parsed.nrTokens = 3 ∧
      parseInPlace commentedLine (fun _ => none) = .ok cut ∧ cut.nrTokens = 2 ∧
      ∃ (inside : 1 < maxTokens) (pointer : Nat) (tail : List Char),
        cut.tokens ⟨1, inside⟩ = some pointer ∧
        (cut.line ++ [nul]).drop pointer = ['c'] ++ nul :: tail := by
  obtain ⟨parsed, cut, shell, number, _, inPlace, number', points, _⟩ :=
    parsers_find_runs commentedLine (by decide) (by decide +kernel) fun _ => none
  exact ⟨parsed, cut, shell, number.trans (by decide +kernel), inPlace,
    number'.trans (by decide +kernel), points 1 ['c'] (by decide +kernel)⟩

end OsPAs
