/-
Module: OsPAs.Shell.Substitution
Purpose: Alias expansion on the lines as they are read.  It is one-pass
  substitution by the latest definitions, whatever was defined before and on
  either side of a pipe, if no line is too long for `parse_command`.
Trusted boundary: none
Main exports: linesRead, definitionsIn, Substitutes, OnePass, runAll_tabulates,
  aliases_expand_in_one_pass, onePass_overruns
-/
import OsPAs.Shell.Bounds

namespace OsPAs.Shell

open Lib

/-- The lines that the shell reads: those up to the one that ends it. -/
def linesRead : List CString → List CString
  | [] => []
  | command :: rest =>
      command :: if EndsShell (runs command) then [] else linesRead rest

/-- The definitions in the lines that are read, however long these are. -/
def definitionsIn (lines : List CString) : List Definition :=
  (linesRead lines).filterMap fun command => definedBy (runs command)

/-- The program that the line runs, or the one on either side of its pipe, is handed
the tokens with each key replaced by the words of its latest definition, if they
fit in `tokens` from where that side starts, with NULL behind them. -/
structure Substitutes (defs : List Definition) (command : CString) (s : Aliases) :
    Prop where
  program : RunsProgram (runs command) →
    (expand defs (runs command)).length < maxNrTokens →
    session command s = .ok ([.exec (.ok {
      argv := expand defs (runs command)
      aliases := s })], .again s)
  left : ∀ left right, runs command = left ++ pipeToken :: right →
    pipeToken ∉ left → (expand defs left).length < maxNrTokens →
    ∃ rightChild, session command s = .ok ([.exec rightChild, .exec (.ok {
      argv := expand defs left
      aliases := s })], .again s)
  right : ∀ left right, runs command = left ++ pipeToken :: right →
    pipeToken ∉ left →
    left.length + 1 + (expand defs right).length < maxNrTokens →
    ∃ leftChild, session command s = .ok ([.exec (.ok {
      argv := expand defs right
      aliases := s }), .exec leftChild], .again s)

/-- The shell goes through the lines, and then its table lists what they define; and
each line substitutes by what was defined in front of it. -/
structure OnePass (lines : List CString) : Prop where
  table : ∃ out pass, runAll session lines noAliases = .ok (out, pass) ∧
    Tabulates (definitionsIn lines) pass.state
  substitutes : ∀ front command rest, lines = front ++ command :: rest →
    ∀ out s, runAll session front noAliases = .ok (out, .again s) →
      Substitutes (definitionsIn front) command s

/-! ### The lines that are read -/

section Read

variable {command : CString} {lines front rest : List CString} {s s' : Aliases}
  {actions : List Action} {out : List (List Action)} {pass : Pass Aliases}

theorem definitionsIn_cons (command : CString) (rest : List CString) :
    definitionsIn (command :: rest) = (definedBy (runs command)).toList ++
      if EndsShell (runs command) then [] else definitionsIn rest := by
  rw [definitionsIn, linesRead, List.filterMap_cons]
  split
  · rename_i none
    rw [none]
    split <;> rfl
  · rename_i d isSome
    rw [isSome]
    split <;> rfl

theorem linesRead_append (goesOn : ∀ command ∈ front, ¬ EndsShell (runs command))
    (rest : List CString) : linesRead (front ++ rest) = front ++ linesRead rest := by
  induction front with
  | nil => rfl
  | cons command front inductionHypothesis =>
      rw [List.forall_mem_cons] at goesOn
      rw [List.cons_append, linesRead, if_neg goesOn.1, inductionHypothesis goesOn.2,
        List.cons_append]

theorem linesRead_eq_self (goesOn : ∀ command ∈ front, ¬ EndsShell (runs command)) :
    linesRead front = front := by
  have all := linesRead_append goesOn []
  rwa [List.append_nil, linesRead, List.append_nil] at all

theorem definitionsIn_append (goesOn : ∀ command ∈ front, ¬ EndsShell (runs command))
    (rest : List CString) :
    definitionsIn (front ++ rest) = definitionsIn front ++ definitionsIn rest := by
  rw [definitionsIn, definitionsIn, definitionsIn, linesRead_append goesOn,
    linesRead_eq_self goesOn, List.filterMap_append]

/-- A line that is handled had room. -/
theorem runs_lt_of_session (ran : session command s = .ok (actions, pass)) :
    (runs command).length < maxNrTokens := by
  by_contra long
  rw [session_of_le (Nat.le_of_not_lt long)] at ran
  exact nomatch ran

theorem not_endsShell_of_nil (empty : runs command = []) :
    ¬ EndsShell (runs command) := by
  simp [EndsShell, empty]

/-- The loop is left behind a line that ends the shell, and behind no other. -/
theorem leaves_iff_of_session (ran : session command s = .ok (actions, pass)) :
    EndsShell (runs command) ↔ ∃ s', pass = .leave s' := by
  have room := runs_lt_of_session ran
  have exits_iff : exits (lineOf command room) ↔ EndsShell (runs command) := Iff.rfl
  rw [session_of_lt room] at ran
  split at ran
  · rename_i empty
    obtain ⟨_, rfl⟩ := Prod.mk.inj (Except.ok.inj ran)
    exact iff_of_false (not_endsShell_of_nil empty) (by simp)
  · rename_i notEmpty
    cases replied : runCommand (lineOf command room) s with
    | error fault => simp [replied, bind, Except.bind] at ran
    | ok reply =>
        have goesOn := goesOn_of_runCommand notEmpty replied
        simp only [replied, bind, Except.bind, pure, Except.pure] at ran
        split at ran
        · rename_i isOn
          obtain ⟨_, rfl⟩ := Prod.mk.inj (Except.ok.inj ran)
          refine iff_of_false ?_ (by simp)
          simpa [isOn, exits_iff] using goesOn
        · rename_i isOff
          obtain ⟨_, rfl⟩ := Prod.mk.inj (Except.ok.inj ran)
          refine iff_of_true ?_ ⟨_, rfl⟩
          simpa [isOff, exits_iff] using goesOn

theorem not_endsShell_of_session (ran : session command s = .ok (actions, .again s')) :
    ¬ EndsShell (runs command) := by
  simp [leaves_iff_of_session ran]

/-- The lines in front of one that is read do not end the shell. -/
theorem goesOn_of_runAll (ran : runAll session front s = .ok (out, .again s')) :
    ∀ command ∈ front, ¬ EndsShell (runs command) := by
  induction front generalizing s out with
  | nil => exact fun command member => absurd member List.not_mem_nil
  | cons command front inductionHypothesis =>
      obtain ⟨_, _, _, _, left⟩ | ⟨_, _, _, first, later, _⟩ :=
        runAll_cons_eq_ok.mp ran
      · exact nomatch left
      · exact List.forall_mem_cons.mpr
          ⟨not_endsShell_of_session first, inductionHypothesis later⟩

end Read

/-! ### The table along a session -/

section Table

variable {command : CString} {lines : List CString} {s : Aliases}
  {defs : List Definition}

/-- A line with room leaves the table in step with what was defined. -/
theorem session_tabulates (tab : Tabulates defs s)
    (room : (runs command).length < maxNrTokens)
    (few : (keysOf (defs ++ (definedBy (runs command)).toList)).length ≤ nrWordCnts) :
    ∃ actions s', session command s = .ok (actions,
        if EndsShell (runs command) then .leave s' else .again s') ∧
      Tabulates (defs ++ (definedBy (runs command)).toList) s' := by
  rw [session_of_lt room]
  by_cases empty : runs command = []
  · have noDefinition : definedBy (runs command) = none := by
      rw [empty]
      rfl
    have isEmpty : (lineOf command room).tokens = [] := empty
    rw [if_pos isEmpty, noDefinition]
    refine ⟨[], s, ?_, by simpa using tab⟩
    rw [if_neg (not_endsShell_of_nil empty)]
  · have notEmpty : (lineOf command room).tokens ≠ [] := empty
    obtain ⟨actions, s', ran, tab'⟩ := runCommand_tabulates tab notEmpty few
    refine ⟨actions, s', ?_, tab'⟩
    rw [if_neg notEmpty, ran]
    by_cases ends : EndsShell (runs command)
    · have ends' : exits (lineOf command room) := ends
      simp [ends, ends', bind, Except.bind, pure, Except.pure]
    · have goesOn : ¬ exits (lineOf command room) := ends
      simp [ends, goesOn, bind, Except.bind, pure, Except.pure]

/-- The table stays in step along all lines with room. -/
theorem runAll_tabulates (lines : List CString) (tab : Tabulates defs s)
    (few : (keysOf (defs ++ definitionsIn lines)).length ≤ nrWordCnts)
    (room : ∀ command ∈ linesRead lines, (runs command).length < maxNrTokens) :
    ∃ out pass, runAll session lines s = .ok (out, pass) ∧
      Tabulates (defs ++ definitionsIn lines) pass.state := by
  induction lines generalizing defs s with
  | nil =>
      refine ⟨[], .again s, rfl, ?_⟩
      simpa [definitionsIn, linesRead, Pass.state] using tab
  | cons command rest inductionHypothesis =>
      rw [definitionsIn_cons, ← List.append_assoc] at few ⊢
      rw [linesRead, List.forall_mem_cons] at room
      obtain ⟨actions, s', ran, tab'⟩ := session_tabulates tab room.1
        (Nat.le_trans (keysOf_length_le _ _) few)
      by_cases ends : EndsShell (runs command)
      · rw [if_pos ends] at ran
        rw [if_pos ends, List.append_nil]
        exact ⟨_, _, runAll_cons_eq_ok.mpr (.inl ⟨_, _, ran, rfl, rfl⟩), tab'⟩
      · rw [if_neg ends] at few ran room ⊢
        obtain ⟨out, pass, later, tab''⟩ := inductionHypothesis tab' few room.2
        exact ⟨_, _, runAll_cons_eq_ok.mpr (.inr ⟨_, _, _, ran, later, rfl⟩), tab''⟩

/-- A run without a fault has room for each line that it reads. -/
theorem room_of_runAll {out : List (List Action)} {pass : Pass Aliases}
    (ran : runAll session lines s = .ok (out, pass)) :
    ∀ command ∈ linesRead lines, (runs command).length < maxNrTokens := by
  induction lines generalizing s out with
  | nil => exact fun command member => absurd member List.not_mem_nil
  | cons command rest inductionHypothesis =>
      rw [linesRead, List.forall_mem_cons]
      obtain ⟨_, s', first, _, _⟩ | ⟨_, s', _, first, later, _⟩ :=
        runAll_cons_eq_ok.mp ran
      · refine ⟨runs_lt_of_session first, ?_⟩
        rw [if_pos ((leaves_iff_of_session first).mpr ⟨s', rfl⟩)]
        exact fun command member => absurd member List.not_mem_nil
      · refine ⟨runs_lt_of_session first, ?_⟩
        rw [if_neg (not_endsShell_of_session first)]
        exact inductionHypothesis later

end Table

/-! ### One pass -/

theorem words_of_definedBy {command : CString} {d : Definition}
    (defines : definedBy (runs command) = some d) :
    ∀ word ∈ d.2, IsWord delimiters word := by
  intro word member
  have inLine : word ∈ runs command := by
    rw [(tokens_of_definedBy defines).2]
    exact List.mem_cons_of_mem _ (List.mem_cons_of_mem _ member)
  exact isWord_of_mem_words inLine

theorem filled_definitionsIn {lines : List CString}
    (notEmpty : ∀ d ∈ definitionsIn lines, d.2 ≠ []) : Filled (definitionsIn lines) where
  words := by
    intro d member
    obtain ⟨command, _, defines⟩ := List.mem_filterMap.mp member
    exact words_of_definedBy defines
  notEmpty := notEmpty

/-- A line with room substitutes by what was defined. -/
theorem substitutes_of_room {command : CString} {s : Aliases} {defs : List Definition}
    (tab : Tabulates defs s) (filled : Filled defs)
    (room : (runs command).length < maxNrTokens) : Substitutes defs command s := by
  have ran (reply : Reply) (notEmpty : runs command ≠ [])
      (replied : runCommand (lineOf command room) s = .ok reply)
      (goesOn : reply.goesOn = true) :
      session command s = .ok (reply.actions, .again reply.aliases) := by
    have notEmpty : (lineOf command room).tokens ≠ [] := notEmpty
    rw [session_of_lt room, if_neg notEmpty, replied]
    simp [goesOn, bind, Except.bind, pure, Except.pure]
  have piped {left right : List CString} (tokensEq : runs command =
      left ++ pipeToken :: right) : runs command ≠ [] ∧
        (lineOf command room).tokens = left ++ pipeToken :: right := by
    exact ⟨by simp [tokensEq], tokensEq⟩
  constructor
  · intro isProgram fits
    have isExternal : External (lineOf command room) := isProgram
    obtain ⟨_, _, _, tokensEq, _⟩ := isProgram
    have child := child_spec tab filled (lineOf command room).laid
      (by rwa [Nat.zero_add])
    have replied := runCommand_of_external (s := s) isExternal
    rw [child] at replied
    exact ran _ (by simp [tokensEq]) replied rfl
  · intro left right tokensEq first fits
    obtain ⟨notEmpty, inLine⟩ := piped tokensEq
    have replied := runCommand_of_pipe (s := s) inLine first
    have child := child_spec tab filled (CommandLine.laid_sides inLine).1
      (by simpa using fits)
    rw [child] at replied
    exact ⟨_, ran _ notEmpty replied rfl⟩
  · intro left right tokensEq first fits
    obtain ⟨notEmpty, inLine⟩ := piped tokensEq
    have replied := runCommand_of_pipe (s := s) inLine first
    have child := child_spec tab filled (CommandLine.laid_sides inLine).2 fits
    rw [child] at replied
    exact ⟨_, ran _ notEmpty replied rfl⟩

/-- Alias expansion is one-pass substitution by the latest definitions, in a session
that defines at most 33 keys and each with at least one word, if and only if no
line that the shell reads has more than 31 words: `parse_command` stores them all,
and NULL, in the 32 entries of `tokens`. -/
theorem aliases_expand_in_one_pass (lines : List CString)
    (notEmpty : ∀ d ∈ definitionsIn lines, d.2 ≠ [])
    (few : (keysOf (definitionsIn lines)).length ≤ nrWordCnts) :
    OnePass lines ↔
      ∀ command ∈ linesRead lines, (runs command).length < maxNrTokens := by
  constructor
  · intro onePass
    obtain ⟨out, pass, ran, _⟩ := onePass.table
    exact room_of_runAll ran
  · intro room
    refine ⟨runAll_tabulates lines noAliases_tabulates few room, ?_⟩
    rintro front command rest rfl out s ran
    have goesOn := goesOn_of_runAll ran
    rw [linesRead_append goesOn, List.forall_mem_append] at room
    rw [definitionsIn_append goesOn] at notEmpty few
    rw [List.forall_mem_append] at notEmpty
    obtain ⟨out', pass, ran', tab⟩ := runAll_tabulates front noAliases_tabulates
      (Nat.le_trans (keysOf_length_le _ _) few)
      (by rw [linesRead_eq_self goesOn]; exact room.1)
    obtain ⟨_, rfl⟩ := Prod.mk.inj (Except.ok.inj (ran'.symm.trans ran))
    exact substitutes_of_room tab (filled_definitionsIn notEmpty.1)
      (room.2 command List.mem_cons_self)

/-- `alias k` with 30 words. -/
def longLine : CString := aliasLine 'k' 30

/-- `a | a ... a`, with 30 words behind the pipe. -/
def longPipe : CString := ['a', ' ', '|', ' '] ++ wordsLine 30

/-- Either of them is a line of 32 words that meets the conditions, and overruns
`tokens`. -/
theorem onePass_overruns :
    ((∀ d ∈ definitionsIn [longLine], d.2 ≠ []) ∧
      (keysOf (definitionsIn [longLine])).length ≤ nrWordCnts ∧
      ¬ OnePass [longLine]) ∧
    (∀ d ∈ definitionsIn [longPipe], d.2 ≠ []) ∧
      (keysOf (definitionsIn [longPipe])).length ≤ nrWordCnts ∧
      ¬ OnePass [longPipe] := by
  have faults : runAll session [longLine] noAliases = .error .outOfBounds ∧
      runAll session [longPipe] noAliases = .error .outOfBounds := ⟨rfl, rfl⟩
  refine ⟨⟨by decide, by decide, fun onePass => ?_⟩, by decide, by decide,
    fun onePass => ?_⟩
  · obtain ⟨out, pass, ran, _⟩ := onePass.table
    exact nomatch faults.1.symm.trans ran
  · obtain ⟨out, pass, ran, _⟩ := onePass.table
    exact nomatch faults.2.symm.trans ran

/-- `alias a b`, `alias b c`, `a` once more as `alias a b a`, and then `e a b a`. -/
def crossedLines : List CString :=
  [aliasToken ++ [' ', 'a', ' ', 'b', '\n'], aliasToken ++ [' ', 'b', ' ', 'c', '\n'],
    aliasToken ++ [' ', 'a', ' ', 'b', ' ', 'a', '\n'],
    ['e', ' ', 'a', ' ', 'b', ' ', 'a', '\n']]

/-- The shell runs `e b a c b a`: no word of an alias is expanded again. -/
theorem aliases_expand_in_one_pass_crossedLines :
    ∃ out s, runAll session (crossedLines.take 3) noAliases = .ok (out, .again s) ∧
      session ['e', ' ', 'a', ' ', 'b', ' ', 'a', '\n'] s = .ok ([.exec (.ok {
        argv := [['e'], ['b'], ['a'], ['c'], ['b'], ['a']]
        aliases := s })], .again s) := by
  have onePass := (aliases_expand_in_one_pass crossedLines (by decide) (by decide)).mpr
    (by decide)
  obtain ⟨out, s, ran⟩ : ∃ out s,
      runAll session (crossedLines.take 3) noAliases = .ok (out, .again s) :=
    ⟨_, _, rfl⟩
  refine ⟨out, s, ran, ?_⟩
  have substitutes := onePass.substitutes _ _ [] rfl out s ran
  exact substitutes.program ⟨by decide, ['e'], [['a'], ['b'], ['a']], rfl, by decide⟩
    (by decide)

end OsPAs.Shell
