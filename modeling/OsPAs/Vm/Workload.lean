/-
Module: OsPAs.Vm.Workload
Purpose: Workload files: reading the lines of a file, what the loop of
  `__do_simulation` does with their tokens, and files as renderings of what they
  ask for.
Trusted boundary: none
Main exports: unsignedArg, runCommand, simulateFile, Instruction, follow, Spells,
  Renders, workload_reads_back, workload_runs_requests
-/
import OsPAs.Sched.Loader
import OsPAs.Vm.Dumps
import OsPAs.Vm.Spelling

namespace OsPAs.Vm

open Lib
open Sched (isSpace content maxTokens)

/-! ### The loop over the lines -/

/-- `MAX_COMMAND_LEN`, the length of the buffer `command`. -/
def maxCommandLen : Nat := 4096

/-- The line in lowercase, up to the NUL behind which nobody reads it. -/
def lowercase (command : List Char) : List Char :=
  (content command).map Char.toLower

/-- `parse_command`, which is that of the scheduler word for word. -/
def parseCommand (command : List Char) : Except Fault (List (List Char)) :=
  match Sched.parseCommand command with
  | .error _ => .error .outOfRange
  | .ok tokens => .ok tokens

/-- `strmatch`, which is that of the scheduler too. -/
def strmatch (str expect : List Char) : Bool := Sched.strmatch str expect

/-- The value of `strtoimax`, narrowed to an `unsigned int`. -/
def unsignedArg (token : List Char) : Nat :=
  (strtoimax token % 2 ^ 32).toNat

/-- A command of the simulator, with the text of its outcome. -/
def told (t : Bool) (result : Except Fault (Outcome × Pass System)) :
    Except Fault (List Char × Pass System) := do
  let (outcome, pass) ← result
  return (outcome.text t, pass)

/-- One pass of the loop in `__do_simulation` on the tokens of its line, with
what it prints on stderr.  Help and the complaint about an unknown command go to
stdout. -/
def runCommand (verbose t : Bool) (env : Env) (tokens : List (List Char))
    (s : System) : Except Fault (List Char × Pass System) :=
  match tokens with
  | [] => .ok ([], .again s)
  | [name] =>
      if strmatch name "exit".toList then .ok ([], .leave s)
      else if strmatch name "show".toList then do
        let text ← showPagetable verbose s.kernel.current
        return (text, .again s)
      else if strmatch name "frames".toList then
        .ok (showPageframes s.kernel.mapcounts, .again s)
      else if strmatch name "tlb".toList then .ok (showTlb s.tlb, .again s)
      else .ok ([], .again s)
  | [name, token] =>
      let arg := unsignedArg token
      if strmatch name "switch".toList || strmatch name "s".toList then
        told t (execute t env (.switch arg) s)
      else if strmatch name "free".toList || strmatch name "f".toList then
        told t (execute t env (.free arg) s)
      else if strmatch name "read".toList || strmatch name "r".toList then
        told t (execute t env (.read arg) s)
      else if strmatch name "write".toList || strmatch name "w".toList then
        told t (execute t env (.write arg) s)
      else .ok ([], .again s)
  | [name, token, rw] =>
      let vpn := unsignedArg token
      if strmatch name "alloc".toList || strmatch name "a".toList then
        told t (execute t env (.alloc vpn rw) s)
      else if strmatch name "access".toList then
        told t (perform t env (.access vpn rw) s)
      else .ok ([], .again s)
  | _ => .error .assertFailed

/-- One pass of the loop on its line. -/
def runLine (verbose t : Bool) (env : Env) (command : List Char) (s : System) :
    Except Fault (List Char × Pass System) := do
  let tokens ← parseCommand (lowercase command)
  runCommand verbose t env tokens s

/-- `__do_simulation` on a file with this text: everything on stderr, and how the
loop ends. -/
def simulateFile (verbose t : Bool) (env : Env) (file : List Char) :
    Except Fault (List Char × Pass System) :=
  collect (runAll (runLine verbose t env)
    (getLines maxCommandLen newline file.length file) init)

/-! ### What a file asks for -/

/-- What a line can ask for. -/
inductive Instruction where
  | request (request : Request)
  | pagetable
  | pageframes
  | tlb
  | help
  | exit
deriving DecidableEq, Repr

/-- What the simulator does about it. -/
def follow (verbose t : Bool) (env : Env) (instruction : Instruction)
    (s : System) : Except Fault (List Char × Pass System) :=
  match instruction with
  | .request request => told t (perform t env request s)
  | .pagetable => do
      let text ← showPagetable verbose s.kernel.current
      return (text, .again s)
  | .pageframes => .ok (showPageframes s.kernel.mapcounts, .again s)
  | .tlb => .ok (showTlb s.tlb, .again s)
  | .help => .ok ([], .again s)
  | .exit => .ok ([], .leave s)

/-- The token is a numeral of C for a number that is `value` as an
`unsigned int`. -/
def IsArg (value : Nat) (token : List Char) : Prop :=
  ∃ number : Int, Denotes token number ∧ -2 ^ 63 ≤ number ∧ number < 2 ^ 63 ∧
    (number % 2 ^ 32).toNat = value

namespace Instruction

/-- The names that it goes by. -/
def names : Instruction → List (List Char)
  | .request (.command (.switch _)) => ["switch".toList, "s".toList]
  | .request (.command (.free _)) => ["free".toList, "f".toList]
  | .request (.command (.read _)) => ["read".toList, "r".toList]
  | .request (.command (.write _)) => ["write".toList, "w".toList]
  | .request (.command (.alloc _ _)) => ["alloc".toList, "a".toList]
  | .request (.access _ _) => ["access".toList]
  | .pagetable => ["show".toList]
  | .pageframes => ["frames".toList]
  | .tlb => ["tlb".toList]
  | .help => ["help".toList, "?".toList]
  | .exit => ["exit".toList]

/-- What the tokens behind the name are. -/
def operands : Instruction → List (List Char → Prop)
  | .request (.command (.switch pid)) => [IsArg pid]
  | .request (.command (.free vpn)) => [IsArg vpn]
  | .request (.command (.read vpn)) => [IsArg vpn]
  | .request (.command (.write vpn)) => [IsArg vpn]
  | .request (.command (.alloc vpn rw)) => [IsArg vpn, (· = rw)]
  | .request (.access vpn rw) => [IsArg vpn, (· = rw)]
  | _ => []

end Instruction

/-- The tokens, in lowercase, ask for this. -/
def Spells (instruction : Instruction) (tokens : List (List Char)) : Prop :=
  ∃ name args, tokens = name :: args ∧ name ∈ instruction.names ∧
    List.Forall₂ (fun is arg => is arg) instruction.operands args

/-- The line is read whole, has no NUL, and at most 32 tokens. -/
structure LineFits (line : List Char) : Prop where
  oneLine : newline ∉ line
  noNul : nul ∉ line
  short : line.length + 1 < maxCommandLen
  fewTokens : (words isSpace line).length ≤ maxTokens

instance (line : List Char) : Decidable (LineFits line) :=
  decidable_of_iff (newline ∉ line ∧ nul ∉ line ∧
      line.length + 1 < maxCommandLen ∧ (words isSpace line).length ≤ maxTokens)
    ⟨fun fits => ⟨fits.1, fits.2.1, fits.2.2.1, fits.2.2.2⟩,
      fun fits => ⟨fits.oneLine, fits.noNul, fits.short, fits.fewTokens⟩⟩

/-- The file is a rendering of the instructions: lines in any letter case that are
laid out with blanks and perhaps a comment, among lines without tokens. -/
def Renders (instructions : List Instruction) (file : List Char) : Prop :=
  ∃ lines last laid, file = terminated newline lines ++ last ∧
    (∀ line ∈ lines ++ [last], LineFits line) ∧
    List.Forall₂ (LineOf isSpace '#') laid (lines ++ [last]) ∧
    List.Forall₂ Spells instructions
      ((laid.map (List.map (List.map Char.toLower))).filter (· ≠ []))

/-! ### Tokens -/

section Tokens

variable {verbose t : Bool} {env : Env} {instruction : Instruction}
  {tokens : List (List Char)} {line : List Char}

theorem IsArg.unsignedArg {value : Nat} {token : List Char}
    (isArg : IsArg value token) : unsignedArg token = value := by
  obtain ⟨number, denotes, above, below, narrowed⟩ := isArg
  rw [OsPAs.Vm.unsignedArg, denotes.strtoimax above below, narrowed]

/-- The tokens of an instruction are followed. -/
theorem runCommand_spells (spells : Spells instruction tokens) :
    runCommand verbose t env tokens = follow verbose t env instruction := by
  obtain ⟨name, args, rfl, isName, areArgs⟩ := spells
  have none (noOperands : instruction.operands = []) : args = [] := by
    rw [noOperands] at areArgs
    exact List.forall₂_nil_left_iff.mp areArgs
  have one {value : Nat} (operand : instruction.operands = [IsArg value]) :
      ∃ token, args = [token] ∧ unsignedArg token = value := by
    rw [operand] at areArgs
    obtain ⟨token, rest, isArg, others, rfl⟩ :=
      List.forall₂_cons_left_iff.mp areArgs
    rw [List.forall₂_nil_left_iff.mp others]
    exact ⟨token, rfl, isArg.unsignedArg⟩
  have two {value : Nat} {rw' : List Char}
      (operands : instruction.operands = [IsArg value, (· = rw')]) :
      ∃ token, args = [token, rw'] ∧ unsignedArg token = value := by
    rw [operands] at areArgs
    obtain ⟨token, rest, isArg, others, rfl⟩ :=
      List.forall₂_cons_left_iff.mp areArgs
    obtain ⟨other, nothing, isRw, ends, rfl⟩ :=
      List.forall₂_cons_left_iff.mp others
    rw [List.forall₂_nil_left_iff.mp ends, isRw]
    exact ⟨token, rfl, isArg.unsignedArg⟩
  funext s
  cases instruction with
  | request request =>
      cases request with
      | access vpn rw' =>
          obtain ⟨token, rfl, rfl⟩ := two rfl
          obtain rfl := List.mem_singleton.mp isName
          rfl
      | command c =>
          cases c with
          | alloc vpn rw' =>
              obtain ⟨token, rfl, rfl⟩ := two rfl
              rcases List.mem_pair.mp isName with rfl | rfl <;> rfl
          | free vpn =>
              obtain ⟨token, rfl, rfl⟩ := one rfl
              rcases List.mem_pair.mp isName with rfl | rfl <;> rfl
          | read vpn =>
              obtain ⟨token, rfl, rfl⟩ := one rfl
              rcases List.mem_pair.mp isName with rfl | rfl <;> rfl
          | write vpn =>
              obtain ⟨token, rfl, rfl⟩ := one rfl
              rcases List.mem_pair.mp isName with rfl | rfl <;> rfl
          | switch pid =>
              obtain ⟨token, rfl, rfl⟩ := one rfl
              rcases List.mem_pair.mp isName with rfl | rfl <;> rfl
  | pagetable =>
      obtain rfl := none rfl
      obtain rfl := List.mem_singleton.mp isName
      rfl
  | pageframes =>
      obtain rfl := none rfl
      obtain rfl := List.mem_singleton.mp isName
      rfl
  | tlb =>
      obtain rfl := none rfl
      obtain rfl := List.mem_singleton.mp isName
      rfl
  | help =>
      obtain rfl := none rfl
      rcases List.mem_pair.mp isName with rfl | rfl <;> rfl
  | exit =>
      obtain rfl := none rfl
      obtain rfl := List.mem_singleton.mp isName
      rfl

/-- `tolower` moves the capital letters. -/
theorem toNat_toLower (ch : Char) : ch.toLower.toNat =
    if 65 ≤ ch.toNat ∧ ch.toNat ≤ 90 then ch.toNat + 32 else ch.toNat := by
  have bounds : (ch.val ≥ 'A'.val ∧ ch.val ≤ 'Z'.val) ↔
      65 ≤ ch.toNat ∧ ch.toNat ≤ 90 := by
    rw [ge_iff_le, UInt32.le_iff_toNat_le, UInt32.le_iff_toNat_le]
    rfl
  unfold Char.toLower
  split
  · rename_i upper
    have inBounds := bounds.mp upper
    have small : ch.val.toNat ≤ 90 := inBounds.2
    rw [if_pos inBounds]
    change (ch.val + 32).toNat = ch.val.toNat + 32
    rw [UInt32.toNat_add]
    change (ch.val.toNat + 32) % 2 ^ 32 = _
    omega
  · rename_i notUpper
    rw [if_neg (bounds.not.mp notUpper)]

/-- It keeps blanks, and the marks in front of the letters. -/
theorem isSpace_toLower (ch : Char) : isSpace ch.toLower = isSpace ch := by
  simp only [isSpace, toNat_toLower, decide_eq_decide]
  split <;> omega

theorem toLower_eq_iff {mark : Char} (inFront : mark.toNat < 65) (ch : Char) :
    ch.toLower = mark ↔ ch = mark := by
  rw [← Char.toNat_inj, ← Char.toNat_inj, toNat_toLower]
  split <;> omega

/-- The tokens of a line without NUL. -/
def tokensOf (line : List Char) : List (List Char) :=
  ((words isSpace line).takeWhile fun word => word.head? ≠ some '#').map
    (List.map Char.toLower)

theorem LineOf.tokensOf (isLine : LineOf isSpace '#' tokens line) :
    tokensOf line = tokens.map (List.map Char.toLower) := by
  rw [OsPAs.Vm.tokensOf, isLine.words_takeWhile (by decide)]

theorem content_eq_self (noNul : nul ∉ line) : content line = line := by
  refine List.takeWhile_eq_self_iff.mpr fun ch member => ?_
  have other : ch ≠ nul := by
    rintro rfl
    exact noNul member
  simpa using other

/-- Parsing a line in lowercase gives its tokens. -/
theorem parseCommand_lowercase (noNul : nul ∉ line)
    (fewTokens : (words isSpace line).length ≤ maxTokens) :
    parseCommand (lowercase line) = .ok (tokensOf line) := by
  have stillNoNul : nul ∉ line.map Char.toLower := by
    intro member
    obtain ⟨ch, inLine, lowered⟩ := List.mem_map.mp member
    obtain rfl := (toLower_eq_iff (by decide) ch).mp lowered
    exact noNul inLine
  have mark : ((fun word : List Char => decide (word.head? ≠ some '#')) ∘
      List.map Char.toLower) = fun word => decide (word.head? ≠ some '#') := by
    funext word
    cases word with
    | nil => rfl
    | cons ch word =>
        have isMark := toLower_eq_iff (show '#'.toNat < 65 by decide) ch
        simp [isMark]
  rw [parseCommand, lowercase, content_eq_self noNul, Sched.parseCommand_eq,
    content_eq_self stillNoNul, words_map isSpace_toLower, List.length_map,
    if_pos fewTokens, List.takeWhile_map, mark]
  rfl

/-- The line feed behind a line makes no difference. -/
theorem tokensOf_append_newline (line : List Char) :
    words isSpace (line ++ [newline]) = words isSpace line := by
  rw [words_append_blank (by decide), words_nil, List.append_nil]

theorem LineFits.runLine (fits : LineFits line) :
    runLine verbose t env line = runCommand verbose t env (tokensOf line) := by
  funext s
  rw [OsPAs.Vm.runLine, parseCommand_lowercase fits.noNul fits.fewTokens]
  rfl

theorem LineFits.runLine_newline (fits : LineFits line) :
    OsPAs.Vm.runLine verbose t env (line ++ [newline]) =
      runCommand verbose t env (tokensOf line) := by
  have noNul : nul ∉ line ++ [newline] := by
    rw [List.mem_append]
    exact not_or_intro fits.noNul (by decide)
  have sameWords := tokensOf_append_newline line
  have sameTokens : tokensOf (line ++ [newline]) = tokensOf line := by
    rw [tokensOf, tokensOf, sameWords]
  funext s
  rw [OsPAs.Vm.runLine, parseCommand_lowercase noNul
    (sameWords ▸ fits.fewTokens), sameTokens]
  rfl

end Tokens

/-! ### Reading a rendering -/

section Files

variable {verbose t : Bool} {env : Env} {instructions : List Instruction}
  {file : List Char}

/-- The loop over the lines of a file runs their tokens; lines without tokens make
no difference. -/
theorem simulateFile_eq {lines : List (List Char)} {last : List Char}
    (fits : ∀ line ∈ lines ++ [last], LineFits line) :
    simulateFile verbose t env (terminated newline lines ++ last) =
      collect (runAll (runCommand verbose t env)
        (((lines ++ [last]).map tokensOf).filter (· ≠ [])) init) := by
  have fitsLast : LineFits last := fits last (by simp)
  have fitsLine {line : List Char} (member : line ∈ last :: lines) :
      LineFits line := fits line (by
    rcases List.mem_cons.mp member with rfl | inLines
    · simp
    · exact List.mem_append_left _ inLines)
  have runs : List.Forall₂
      (fun line tokens =>
        runLine verbose t env line = runCommand verbose t env tokens)
      ((lines.map fun line => line ++ [newline]) ++ [last].filter (· ≠ []))
      (lines.map tokensOf ++ ([last].filter (· ≠ [])).map tokensOf) := by
    refine List.rel_append ?_ ?_
    · rw [List.forall₂_map_left_iff, List.forall₂_map_right_iff,
        List.forall₂_same]
      exact fun line member =>
        (fitsLine (List.mem_cons_of_mem _ member)).runLine_newline
    · rw [List.forall₂_map_right_iff, List.forall₂_same]
      intro line member
      rw [List.mem_singleton.mp (List.mem_of_mem_filter member)]
      exact fitsLast.runLine
  have sameTokens :
      (lines.map tokensOf ++ ([last].filter (· ≠ [])).map tokensOf).filter
          (· ≠ []) =
        ((lines ++ [last]).map tokensOf).filter (· ≠ []) := by
    rw [List.map_append, List.filter_append, List.filter_append]
    by_cases isEmpty : last = []
    · subst isEmpty
      have nothing : tokensOf [] = [] := by
        rw [tokensOf, words_nil]
        rfl
      simp [nothing]
    · simp [isEmpty]
  rw [simulateFile, getLines_terminated
      (fun line member => (fitsLine member).short)
      (fun line member => (fitsLine member).oneLine) le_rfl,
    runAll_congr runs, ← sameTokens]
  refine (collect_runAll_filter (fun tokens s dropped => ?_) _ _).symm
  obtain rfl : tokens = [] := by simpa using dropped
  rfl

/-- A simulation of a rendering does what it renders. -/
theorem workload_reads_back (renders : Renders instructions file)
    (verbose t : Bool) (env : Env) :
    simulateFile verbose t env file =
      collect (runAll (follow verbose t env) instructions init) := by
  obtain ⟨lines, last, laid, rfl, fits, laidOut, spelled⟩ := renders
  have areTokens : laid.map (List.map (List.map Char.toLower)) =
      (lines ++ [last]).map tokensOf := by
    rw [← List.forall₂_eq_eq_eq, List.forall₂_map_left_iff,
      List.forall₂_map_right_iff]
    exact laidOut.imp fun _ _ isLine => (LineOf.tokensOf isLine).symm
  rw [areTokens] at spelled
  have follows : List.Forall₂
      (fun tokens instruction => runCommand verbose t env tokens =
        follow verbose t env instruction)
      (((lines ++ [last]).map tokensOf).filter (· ≠ [])) instructions :=
    (spelled.imp fun _ _ spells => runCommand_spells spells).flip
  rw [simulateFile_eq fits, runAll_congr follows]

/-! ### What any file does -/

/-- The request in the tokens of a line, if there is one. -/
def requestOf (tokens : List (List Char)) : Option Request :=
  match tokens with
  | [name, token] =>
      let arg := unsignedArg token
      if strmatch name "switch".toList || strmatch name "s".toList then
        some (.command (.switch arg))
      else if strmatch name "free".toList || strmatch name "f".toList then
        some (.command (.free arg))
      else if strmatch name "read".toList || strmatch name "r".toList then
        some (.command (.read arg))
      else if strmatch name "write".toList || strmatch name "w".toList then
        some (.command (.write arg))
      else none
  | [name, token, rw] =>
      let vpn := unsignedArg token
      if strmatch name "alloc".toList || strmatch name "a".toList then
        some (.command (.alloc vpn rw))
      else if strmatch name "access".toList then some (.access vpn rw)
      else none
  | _ => none

/-- The requests in the lines of a file. -/
def lineRequest (line : List Char) : Option Request :=
  (parseCommand (lowercase line)).toOption.bind requestOf

/-- A line with a request performs it. -/
theorem runCommand_request {tokens : List (List Char)} {request : Request}
    (asks : requestOf tokens = some request) (s : System) :
    runCommand verbose t env tokens s = told t (perform t env request s) := by
  have chain {found : Option Request} (isFound : found = some request) :
      found.elim (.ok ([], .again s)) (fun request =>
        told t (perform t env request s)) =
          told t (perform t env request s) := by
    rw [isFound]
    rfl
  rw [← chain asks]
  match tokens, asks with
  | [name, token], _ =>
      simp only [runCommand, requestOf]
      split_ifs <;> rfl
  | [name, token, rw'], _ =>
      simp only [runCommand, requestOf]
      split_ifs <;> rfl

/-- A line without one looks at the simulator at most. -/
theorem runCommand_looks {tokens : List (List Char)}
    (asksNothing : requestOf tokens = none) {s : System} {text : List Char}
    {pass : Pass System}
    (ran : runCommand verbose t env tokens s = .ok (text, pass)) :
    pass.state = s := by
  match tokens, asksNothing with
  | [], _ =>
      rw [← (Prod.mk.inj (Except.ok.inj ran)).2]
      rfl
  | [name], _ =>
      simp only [runCommand] at ran
      split_ifs at ran
      · rw [← (Prod.mk.inj (Except.ok.inj ran)).2]
        rfl
      · cases table : showPagetable verbose s.kernel.current with
        | error fault => simp [table, bind, Except.bind] at ran
        | ok shown =>
            rw [table] at ran
            rw [← (Prod.mk.inj (Except.ok.inj ran)).2]
            rfl
      all_goals
        rw [← (Prod.mk.inj (Except.ok.inj ran)).2]
        rfl
  | [name, token], asksNothing =>
      simp only [requestOf] at asksNothing
      simp only [runCommand] at ran
      split_ifs at asksNothing ran
      rw [← (Prod.mk.inj (Except.ok.inj ran)).2]
      rfl
  | [name, token, rw'], asksNothing =>
      simp only [requestOf] at asksNothing
      simp only [runCommand] at ran
      split_ifs at asksNothing ran
      rw [← (Prod.mk.inj (Except.ok.inj ran)).2]
      rfl
  | _ :: _ :: _ :: _ :: _, _ => simp [runCommand] at ran

theorem tokens_of_runLine {line text : List Char} {s : System}
    {pass : Pass System} (ran : runLine verbose t env line s = .ok (text, pass)) :
    ∃ tokens, parseCommand (lowercase line) = .ok tokens ∧
      runCommand verbose t env tokens s = .ok (text, pass) := by
  unfold runLine at ran
  cases parsed : parseCommand (lowercase line) with
  | error fault => simp [parsed, bind, Except.bind] at ran
  | ok tokens =>
      rw [parsed] at ran
      exact ⟨tokens, rfl, ran⟩

theorem lineRequest_performs {line : List Char} {request : Request}
    {s : System} (asks : lineRequest line = some request) (text : List Char)
    (pass : Pass System) (ran : runLine verbose t env line s = .ok (text, pass)) :
    ∃ outcome, perform t env request s = .ok (outcome, pass) ∧
      text = outcome.text t := by
  obtain ⟨tokens, parsed, tokensRan⟩ := tokens_of_runLine ran
  have asksThis : requestOf tokens = some request := by
    simpa [lineRequest, parsed, Except.toOption] using asks
  rw [runCommand_request asksThis] at tokensRan
  cases performed : perform t env request s with
  | error fault => simp [performed, told, bind, Except.bind] at tokensRan
  | ok result =>
      rw [performed] at tokensRan
      obtain ⟨rfl, rfl⟩ := Prod.mk.inj (Except.ok.inj tokensRan)
      exact ⟨result.1, rfl, rfl⟩

theorem lineRequest_looks {line : List Char} {s : System}
    (asksNothing : lineRequest line = none) (text : List Char)
    (pass : Pass System) (ran : runLine verbose t env line s = .ok (text, pass)) :
    pass.state = s := by
  obtain ⟨tokens, parsed, tokensRan⟩ := tokens_of_runLine ran
  have asksNone : requestOf tokens = none := by
    simpa [lineRequest, parsed, Except.toOption] using asksNothing
  exact runCommand_looks asksNone tokensRan

/-- Whatever a file holds: if its simulation comes to an end, the simulator has
performed the requests in some number of its first lines and nothing else, and
their texts are among those that were printed. -/
theorem workload_runs_requests (verbose t : Bool) (env : Env)
    (file : List Char) {printed : List Char} {pass : Pass System}
    (ran : simulateFile verbose t env file = .ok (printed, pass)) :
    ∃ count outcomes pass' texts,
      runAll (perform t env)
        (((getLines maxCommandLen newline file.length file).take count).filterMap
          lineRequest) init = .ok (outcomes, pass') ∧
        pass'.state = pass.state ∧ texts.flatten = printed ∧
        (outcomes.map (Outcome.text t)).Sublist texts := by
  obtain ⟨texts, linesRan, isPrinted⟩ := ok_of_collect ran
  have performs (line : List Char) (request : Request) (s : System)
      (asks : lineRequest line = some request) (text : List Char)
      (pass : Pass System) (ran : runLine verbose t env line s = .ok (text, pass)) :=
    lineRequest_performs asks text pass ran
  have looks (line : List Char) (s : System) (asksNothing : lineRequest line = none)
      (text : List Char) (pass : Pass System)
      (ran : runLine verbose t env line s = .ok (text, pass)) :=
    lineRequest_looks asksNothing text pass ran
  obtain ⟨count, outcomes, pass', performed, same, among⟩ :=
    runAll_filterMap performs looks linesRan
  exact ⟨count, outcomes, pass', texts, performed, same, isPrinted, among⟩

/-- Dumps and an unknown command between requests. -/
def lookingAround : List Char :=
  "alloc 0 r\nshow\nread 0 # twice\nr 0\ntlb\nlist\nexit\nfree 0".toList

theorem workload_runs_requests_lookingAround :
    ∃ printed pass,
      simulateFile false true zeroEnv lookingAround = .ok (printed, pass) ∧
      ∃ count outcomes pass' texts,
        runAll (perform true zeroEnv)
          (((getLines maxCommandLen newline lookingAround.length
            lookingAround).take count).filterMap lineRequest) init =
              .ok (outcomes, pass') ∧
          pass'.state = pass.state ∧ texts.flatten = printed ∧
          (outcomes.map (Outcome.text true)).Sublist texts := by
  have ends : (simulateFile false true zeroEnv lookingAround).isOk = true := by
    decide
  cases ran : simulateFile false true zeroEnv lookingAround with
  | error fault => simp [ran, Except.isOk, Except.toBool] at ends
  | ok result =>
      exact ⟨result.1, result.2, rfl,
        workload_runs_requests false true zeroEnv lookingAround ran⟩

/-- Lines with comments and a tab, in upper case, and numerals to all bases; an
empty one, and one that nothing terminates. -/
def mixedLines : List (List Char) :=
  ["# first a page".toList, "ALLOC 0x1F Rw".toList, "".toList,
    "\tw   037   # octal".toList, "Switch 1".toList, "f +31".toList,
    "frames".toList]

/-- What they ask for. -/
def mixedInstructions : List Instruction :=
  [.request (.command (.alloc 31 ['r', 'w'])), .request (.command (.write 31)),
    .request (.command (.switch 1)), .request (.command (.free 31)),
    .pageframes, .exit]

theorem mixed_renders :
    Renders mixedInstructions (terminated newline mixedLines ++ "exit".toList) := by
  refine ⟨mixedLines, "exit".toList, (mixedLines ++ ["exit".toList]).map _, rfl,
    by decide, List.forall₂_map_left_iff.mpr (List.forall₂_same.mpr fun line _ =>
      lineOf_words line), ?_⟩
  have hexadecimal : IsArg 31 ['0', 'x', '1', 'f'] :=
    ⟨31, .plain (.hexadecimal (Or.inl rfl) (by decide)), by omega, by omega, rfl⟩
  have octal : IsArg 31 ['0', '3', '7'] :=
    ⟨31, .plain (.octal (by decide)), by omega, by omega, rfl⟩
  have plus : IsArg 31 ['+', '3', '1'] :=
    ⟨31, .plus (.decimal (by decide) (by decide)), by omega, by omega, rfl⟩
  have one : IsArg 1 ['1'] :=
    ⟨1, .plain (.decimal (by decide) (by decide)), by omega, by omega, rfl⟩
  refine .cons ⟨"alloc".toList, _, rfl, .head _,
    .cons hexadecimal (.cons rfl .nil)⟩ ?_
  refine .cons ⟨"w".toList, _, rfl, .tail _ (.head _), .cons octal .nil⟩ ?_
  refine .cons ⟨"switch".toList, _, rfl, .head _, .cons one .nil⟩ ?_
  refine .cons ⟨"f".toList, _, rfl, .tail _ (.head _), .cons plus .nil⟩ ?_
  refine .cons ⟨"frames".toList, _, rfl, .head _, .nil⟩ ?_
  exact .cons ⟨"exit".toList, _, rfl, .head _, .nil⟩ .nil

theorem workload_reads_back_mixed :
    simulateFile false true zeroEnv
        (terminated newline mixedLines ++ "exit".toList) =
      collect (runAll (follow false true zeroEnv) mixedInstructions init) :=
  workload_reads_back mixed_renders false true zeroEnv

end Files

end OsPAs.Vm
