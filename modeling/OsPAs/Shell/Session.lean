/-
Module: OsPAs.Shell.Session
Purpose: What `run_command` does with each kind of line, and that it leaves the
  table in step with what was defined.
Trusted boundary: none
Main exports: External, runCommand_of_exits, runCommand_of_external,
  runCommand_of_definition, runCommand_of_pipe, runCommand_tabulates,
  CommandLine.laid_sides
-/
import OsPAs.Shell.Expansion

namespace OsPAs.Shell

open Lib

/-- A command of these tokens runs one program: there is no pipe and no built-in
command. -/
def RunsProgram (tokens : List CString) : Prop :=
  pipeToken ∉ tokens ∧ ∃ command args, tokens = command :: args ∧
    command ∉ [exitToken, cdToken, aliasToken]

/-- The command line runs one program. -/
def External (line : CommandLine) : Prop :=
  RunsProgram line.tokens

/-! ### The commands -/

section Commands

variable {line : CommandLine} {s : Aliases} {left right : List CString}
  {d : Definition}

theorem findIdx?_pipe_eq_none {tokens : List CString} :
    tokens.findIdx? (fun token => token = pipeToken) = none ↔
      pipeToken ∉ tokens := by
  rw [List.findIdx?_eq_none_iff]
  constructor
  · intro none member
    simpa using none pipeToken member
  · intro noPipe token member
    apply decide_eq_false
    rintro rfl
    exact noPipe member

theorem findIdx?_pipe (first : pipeToken ∉ left) (right : List CString) :
    (left ++ pipeToken :: right).findIdx? (fun token => token = pipeToken) =
      some left.length := by
  rw [List.findIdx?_append, findIdx?_pipe_eq_none.mpr first, List.findIdx?_cons]
  simp

theorem runCommand_of_exits (ends : exits line) :
    runCommand line s = .ok { goesOn := false, aliases := s, actions := [] } := by
  obtain ⟨noPipe, first⟩ := ends
  rw [runCommand, findIdx?_pipe_eq_none.mpr noPipe]
  cases tokensEq : line.tokens with
  | nil => simp [tokensEq] at first
  | cons command args =>
      rw [tokensEq] at first
      obtain rfl : command = exitToken := Option.some.inj first
      rfl

theorem runCommand_of_external (isExternal : External line) :
    runCommand line s = .ok {
      goesOn := true
      aliases := s
      actions := [.exec (child s line.slots 0 line.tokens.length)] } := by
  obtain ⟨noPipe, command, args, tokensEq, notBuiltIn⟩ := isExternal
  simp only [List.mem_cons, List.not_mem_nil, or_false, not_or] at notBuiltIn
  obtain ⟨notExit, notCd, notAlias⟩ := notBuiltIn
  rw [runCommand, findIdx?_pipe_eq_none.mpr noPipe, tokensEq]
  simp only [if_neg notExit, if_neg notCd, if_neg notAlias]

/-- A command that defines an alias has no pipe. -/
theorem tokens_of_definedBy {tokens : List CString} (defines : definedBy tokens = some d) :
    pipeToken ∉ tokens ∧ tokens = aliasToken :: d.1 :: d.2 := by
  unfold definedBy at defines
  split at defines
  · rename_i command key words
    split at defines
    · rename_i isAlias
      obtain ⟨noPipe, rfl⟩ := isAlias
      obtain rfl := Option.some.inj defines
      exact ⟨noPipe, rfl⟩
    · simp at defines
  · simp at defines

theorem tokens_of_definitionOf (defines : definitionOf line = some d) :
    pipeToken ∉ line.tokens ∧ line.tokens = aliasToken :: d.1 :: d.2 :=
  tokens_of_definedBy defines

theorem tokens_ne_nil_of_definitionOf (defines : definitionOf line = some d) :
    line.tokens ≠ [] := by
  rw [(tokens_of_definitionOf defines).2]
  exact List.cons_ne_nil _ _

theorem definitionOf_of_exits (ends : exits line) : definitionOf line = none := by
  cases defines : definitionOf line with
  | none => rfl
  | some d =>
      have isExit := ends.2
      rw [(tokens_of_definitionOf defines).2] at isExit
      exact absurd isExit (by simp [aliasToken, exitToken])

theorem runCommand_of_definition (defines : definitionOf line = some d) :
    runCommand line s = (do
      let s ← defineAlias d.1 d.2 s
      return { goesOn := true, aliases := s, actions := [] }) := by
  obtain ⟨noPipe, tokensEq⟩ := tokens_of_definitionOf defines
  rw [runCommand, findIdx?_pipe_eq_none.mpr noPipe, tokensEq]
  rfl

theorem runCommand_of_pipe (tokensEq : line.tokens = left ++ pipeToken :: right)
    (first : pipeToken ∉ left) :
    runCommand line s = .ok {
      goesOn := true
      aliases := s
      actions := [
        .exec (child s (line.cutSlots left.length) (left.length + 1)
          right.length),
        .exec (child s (line.cutSlots left.length) 0 left.length)] } := by
  have found := findIdx?_pipe first right
  rw [← tokensEq] at found
  have number : line.tokens.length - left.length - 1 = right.length := by
    rw [tokensEq, List.length_append, List.length_cons]
    omega
  rw [runCommand, found]
  simp only [number]

/-- Every other command leaves the aliases as they are. -/
theorem runCommand_otherwise (notEmpty : line.tokens ≠ []) (goesOn : ¬ exits line)
    (noDefinition : definitionOf line = none) : ∃ actions,
      runCommand line s = .ok { goesOn := true, aliases := s, actions } := by
  unfold runCommand
  split
  · exact ⟨_, rfl⟩
  · rename_i none
    have noPipe := findIdx?_pipe_eq_none.mp none
    split
    · rename_i tokensEq
      exact absurd tokensEq notEmpty
    · rename_i command args tokensEq
      split
      · rename_i isExit
        exact absurd ⟨noPipe, by rw [tokensEq, isExit]; rfl⟩ goesOn
      · split
        · exact ⟨_, rfl⟩
        · split
          · rename_i isAlias
            cases args with
            | nil => exact ⟨_, rfl⟩
            | cons key words =>
                have both : pipeToken ∉ line.tokens ∧ command = aliasToken :=
                  ⟨noPipe, isAlias⟩
                simp only [definitionOf, definedBy] at noDefinition
                rw [tokensEq] at noDefinition both
                simp only [if_pos both] at noDefinition
                simp at noDefinition
          · exact ⟨_, rfl⟩

/-- The shell goes on unless the command ends it. -/
theorem goesOn_of_runCommand {reply : Reply} (notEmpty : line.tokens ≠ [])
    (ran : runCommand line s = .ok reply) : reply.goesOn = decide (¬ exits line) := by
  by_cases ends : exits line
  · rw [runCommand_of_exits ends] at ran
    obtain rfl := Except.ok.inj ran
    exact (decide_eq_false (not_not_intro ends)).symm
  · rw [decide_eq_true ends]
    cases defines : definitionOf line with
    | none =>
        obtain ⟨actions, ran'⟩ := runCommand_otherwise notEmpty ends defines
        obtain rfl := Except.ok.inj (ran'.symm.trans ran)
        rfl
    | some d =>
        rw [runCommand_of_definition defines] at ran
        cases defined : defineAlias d.1 d.2 s with
        | error fault => simp [defined, bind, Except.bind] at ran
        | ok s' =>
            rw [defined] at ran
            obtain rfl := Except.ok.inj ran
            rfl

end Commands

/-! ### The table along a session -/

section Session

theorem keysOf_length_le (defs more : List Definition) :
    (keysOf defs).length ≤ (keysOf (defs ++ more)).length := by
  unfold keysOf
  rw [List.map_append, List.eraseDups_append, List.length_append]
  exact Nat.le_add_right _ _

theorem keyAndWords_of_definitionOf {line : CommandLine} {d : Definition}
    (defines : definitionOf line = some d) :
    ∀ word ∈ d.1 :: d.2, IsWord delimiters word := by
  intro word member
  apply line.words
  rw [(tokens_of_definitionOf defines).2]
  exact List.mem_cons_of_mem _ member

theorem words_of_definitionOf {line : CommandLine} {d : Definition}
    (defines : definitionOf line = some d) :
    ∀ word ∈ d.2, IsWord delimiters word := fun word member =>
  keyAndWords_of_definitionOf defines word (List.mem_cons_of_mem _ member)

theorem noAliases_tabulates : Tabulates [] noAliases where
  keys := rfl
  vals := fun pos entry found => by simp [noAliases] at found

/-- A command leaves the table in step with what was defined, and the shell goes on
unless the command ends it. -/
theorem runCommand_tabulates {line : CommandLine} {defs : List Definition} {s : Aliases}
    (tab : Tabulates defs s) (notEmpty : line.tokens ≠ [])
    (few : (keysOf (defs ++ (definitionOf line).toList)).length ≤ nrWordCnts) :
    ∃ actions s', runCommand line s = .ok {
        goesOn := decide (¬ exits line)
        aliases := s'
        actions := actions } ∧
      Tabulates (defs ++ (definitionOf line).toList) s' := by
  by_cases ends : exits line
  · refine ⟨[], s, ?_, ?_⟩
    · rw [runCommand_of_exits ends, decide_eq_false (not_not_intro ends)]
    · rw [definitionOf_of_exits ends]
      simpa using tab
  · rw [decide_eq_true ends]
    cases defines : definitionOf line with
    | none =>
        obtain ⟨actions, ran⟩ := runCommand_otherwise notEmpty ends defines
        exact ⟨actions, s, ran, by simpa using tab⟩
    | some d =>
        rw [defines, Option.toList_some] at few
        obtain ⟨s', defined, tab'⟩ :=
          tab.defined d.1 (words_of_definitionOf defines) few
        refine ⟨[], s', ?_, tab'⟩
        rw [runCommand_of_definition defines, defined]
        rfl

theorem CommandLine.laid (line : CommandLine) : Laid line.slots 0 line.tokens :=
  fun _ _ _ => rfl

/-- With the pipe replaced by NULL, the array holds one side from its start and
the other behind the pipe. -/
theorem CommandLine.laid_sides {line : CommandLine} {left right : List CString}
    (tokensEq : line.tokens = left ++ pipeToken :: right) :
    Laid (line.cutSlots left.length) 0 left ∧
      Laid (line.cutSlots left.length) (left.length + 1) right := by
  constructor
  · intro k _ high
    rw [CommandLine.cutSlots]
    split
    · rename_i isPipe
      rw [List.getElem?_eq_none (by omega)]
    · rw [CommandLine.slots, tokensEq, List.getElem?_append_left (by omega)]
      rfl
  · intro k low _
    have index : k.val - left.length = k.val - (left.length + 1) + 1 := by
      omega
    rw [CommandLine.cutSlots, if_neg (by omega), CommandLine.slots, tokensEq,
      List.getElem?_append_right (by omega), index, List.getElem?_cons_succ]

end Session

end OsPAs.Shell
