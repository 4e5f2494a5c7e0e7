/-
Module: OsPAs.Shell.Parser
Purpose: `parse_command` of the shell's `parser.c`, with the array `tokens` that
  it fills: the words of the line, in order, and NULL behind them.
Trusted boundary: none
Main exports: Parsed, parseCommand, runs, parseCommand_eq, readCommand,
  readCommand_slots
-/
import OsPAs.Lib.Cells
import OsPAs.Lib.Strtok
import OsPAs.Shell.State

namespace OsPAs.Shell

open Lib

/-- What `parse_command` leaves in `tokens` and `nr_tokens`, and what it
returns. -/
structure Parsed where
  tokens : Slots
  nrTokens : Nat
  ret : Bool

/-- The loop of `parse_command` with the NULL behind it, in at most `fuel` calls
of `strtok`; `nr` is the number of tokens so far, and where `tokens` has been
advanced to. -/
def parseTokens : Nat → Cursor → Slots → Nat → Except Fault (Slots × Nat)
  | 0, _, tokens, nr => .ok (tokens, nr)
  | fuel + 1, cursor, tokens, nr =>
      match strtok delimiters cursor with
      | (some curr, cursor) => do
          let tokens := Function.update tokens (← slot nr) (some curr)
          parseTokens fuel cursor tokens (nr + 1)
      | (none, _) => do
          return (Function.update tokens (← slot nr) none, nr)

/-- `parse_command` with the array that `main` hands to it.  Each call of `strtok`
but the last takes a character of the line. -/
def parseCommand (command : CString) : Except Fault Parsed := do
  let (tokens, nr) ← parseTokens (command.length + 1) ⟨[], command⟩ (fun _ => none) 0
  return { tokens := tokens, nrTokens := nr, ret := 0 < nr }

/-- The words of the string in the line. -/
def runs (command : CString) : List CString :=
  words (isDelim delimiters) (upToNul command)

theorem nul_not_mem_delimiters : nul ∉ delimiters := by
  decide

/-- The loop stores the words that are left of the line, and NULL behind them. -/
theorem parseTokens_eq (found : List CString) {fuel nr : Nat} {cursor : Cursor}
    {tokens : Slots} (isFound : runs cursor.after = found)
    (enough : found.length < fuel) (inside : nr ≤ maxNrTokens) :
    parseTokens fuel cursor tokens nr =
      if room : nr + found.length < maxNrTokens then
        .ok (Function.update (stored tokens nr found) ⟨nr + found.length, room⟩ none,
          nr + found.length)
      else .error .outOfBounds := by
  induction found generalizing fuel cursor tokens nr with
  | nil =>
      obtain ⟨fuel, rfl⟩ := Nat.exists_eq_add_one.mpr enough
      obtain ⟨cursor', ends⟩ := strtok_of_nil nul_not_mem_delimiters isFound
      rw [parseTokens, ends]
      simp only [List.length_nil, Nat.add_zero, stored_nil]
      split
      · rename_i room
        rw [slot_of_lt room]
        rfl
      · rename_i full
        rw [slot_of_le (Nat.le_of_not_lt full)]
        rfl
  | cons word more inductionHypothesis =>
      obtain ⟨fuel, rfl⟩ := Nat.exists_eq_add_one.mpr (Nat.zero_lt_of_lt enough)
      obtain ⟨cursor', cuts, goesOn⟩ :=
        strtok_of_cons nul_not_mem_delimiters isFound
      rw [List.length_cons] at enough
      rw [parseTokens, cuts]
      simp only [List.length_cons]
      rcases Nat.lt_or_ge nr maxNrTokens with room | full
      · have number : nr + 1 + more.length = nr + (more.length + 1) := by omega
        rw [slot_of_lt room]
        simp only [bind, Except.bind]
        rw [inductionHypothesis goesOn (by omega) room, stored_cons room]
        simp only [number]
      · rw [slot_of_le full, dif_neg (by omega)]
        rfl

theorem length_runs_le (command : CString) :
    (runs command).length ≤ command.length :=
  Nat.le_trans (length_words_le _) (List.takeWhile_sublist _).length_le

/-- `parse_command` finds the words of the line, if there is an entry of `tokens`
for each of them and for NULL. -/
theorem parseCommand_eq (command : CString) :
    parseCommand command =
      if (runs command).length < maxNrTokens then
        .ok {
          tokens := fun k => (runs command)[k.val]?
          nrTokens := (runs command).length
          ret := 0 < (runs command).length }
      else .error .outOfBounds := by
  have enough : (runs command).length < command.length + 1 :=
    Nat.lt_succ_of_le (length_runs_le command)
  rw [parseCommand, parseTokens_eq (runs command) rfl enough (Nat.zero_le _)]
  simp only [Nat.zero_add]
  split
  · rename_i room
    simp only [bind, Except.bind, pure, Except.pure, Except.ok.injEq,
      Parsed.mk.injEq, and_true]
    funext k
    rw [Function.update_apply, stored]
    split
    · rename_i isEnd
      rw [isEnd, List.getElem?_eq_none (Nat.le_refl _)]
    · rename_i notEnd
      split
      · simp
      · rename_i behind
        rw [List.getElem?_eq_none (by omega)]
  · rfl

/-- What `parse_command` has stored is a command line. -/
theorem listed_of_parseCommand {command : CString} {parsed : Parsed}
    (ran : parseCommand command = .ok parsed) :
    (∀ token ∈ listed parsed.tokens, IsWord delimiters token) ∧
      (listed parsed.tokens).length < maxNrTokens := by
  rw [parseCommand_eq] at ran
  split at ran
  · rename_i room
    obtain rfl := Except.ok.inj ran
    rw [listed_getElem? (Nat.le_of_lt room)]
    exact ⟨fun token => isWord_of_mem_words, room⟩
  · simp at ran

/-- `main` from `fgets` to `run_command`. -/
def readCommand (command : CString) : Except Fault CommandLine :=
  match ran : parseCommand command with
  | .error fault => .error fault
  | .ok parsed => .ok {
      tokens := listed parsed.tokens
      words := (listed_of_parseCommand ran).1
      fits := (listed_of_parseCommand ran).2 }

/-- The command line of a line that `tokens` has room for. -/
def lineOf (command : CString) (room : (runs command).length < maxNrTokens) :
    CommandLine where
  tokens := runs command
  words := fun _ => isWord_of_mem_words
  fits := room

theorem readCommand_of_lt {command : CString}
    (room : (runs command).length < maxNrTokens) :
    readCommand command = .ok (lineOf command room) := by
  have ran := parseCommand_eq command
  rw [if_pos room] at ran
  unfold readCommand
  split
  · rename_i fault failed
    rw [ran] at failed
    simp at failed
  · rename_i parsed ran'
    obtain rfl := Except.ok.inj (ran.symm.trans ran')
    simp only [lineOf, listed_getElem? (Nat.le_of_lt room)]

theorem readCommand_of_le {command : CString}
    (full : maxNrTokens ≤ (runs command).length) :
    readCommand command = .error .outOfBounds := by
  have ran := parseCommand_eq command
  rw [if_neg (Nat.not_lt.mpr full)] at ran
  unfold readCommand
  split
  · rename_i fault failed
    exact congrArg _ (Except.error.inj (failed.symm.trans ran))
  · rename_i parsed ran'
    rw [ran] at ran'
    simp at ran'

/-- The array is as `parse_command` has left it. -/
theorem readCommand_slots {command : CString} {parsed : Parsed}
    (ran : parseCommand command = .ok parsed) :
    ∃ line, readCommand command = .ok line ∧ line.slots = parsed.tokens ∧
      line.tokens.length = parsed.nrTokens := by
  rw [parseCommand_eq] at ran
  split at ran
  · rename_i room
    obtain rfl := Except.ok.inj ran
    exact ⟨_, readCommand_of_lt room, rfl, rfl⟩
  · simp at ran

end OsPAs.Shell
