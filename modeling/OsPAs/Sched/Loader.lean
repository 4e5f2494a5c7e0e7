/-
Module: OsPAs.Sched.Loader
Purpose: Reading a script file: `parse_command` of `parser.c`, `strmatch` and
  `__load_script` of `sched.c`.  What the loader accepts is a script of process
  blocks.
Trusted boundary: none
Main exports: isSpace, parseCommand, parseCommand_eq, fgets, readLines, atoi,
  loadCommand, loadScript, loadScript_blocks
-/
import Mathlib.Data.List.FinRange
import OsPAs.Lib.Ensures
import OsPAs.Lib.Strings
import OsPAs.Lib.Words
import OsPAs.Sched.State

namespace OsPAs.Sched

open Lib

/-- Ways for the loader to end other than by returning: a failed `assert`, a
write behind the end of `tokens[]`, a property outside a block. -/
inductive LoadFault where
  | assertFailed
  | outOfRange
  | nullPointer
deriving DecidableEq, Repr

/-! ### Tokens -/

/-- `isspace`. -/
def isSpace (ch : Char) : Bool :=
  ch.toNat = 32 ∨ 9 ≤ ch.toNat ∧ ch.toNat ≤ 13

/-- Length of the array `tokens`. -/
def maxTokens : Nat := 32

/-- The string at a pointer into the line, once the blanks of the line are
NUL. -/
def stringAt (curr : List Char) : List Char :=
  curr.takeWhile fun ch => !isSpace ch && ch ≠ nul

/-- The `while` loop of `parse_command` from `curr` on. -/
def tokensFrom : List Char → Bool → List (List Char) →
    Except LoadFault (List (List Char))
  | [], _, tokens => .ok tokens
  | ch :: rest, tokenStarted, tokens =>
      if ch = nul then .ok tokens
      else if isSpace ch then tokensFrom rest false tokens
      else if tokenStarted then tokensFrom rest true tokens
      else if tokens.length < maxTokens then
        tokensFrom rest true (tokens ++ [stringAt (ch :: rest)])
      else .error .outOfRange

/-- `parse_command`: the tokens in front of the first one that begins with
`#`. -/
def parseCommand (line : List Char) : Except LoadFault (List (List Char)) := do
  let tokens ← tokensFrom line false []
  return tokens.takeWhile fun token => token.head? ≠ some '#'

/-- What the line holds as a string. -/
def content (line : List Char) : List Char := line.takeWhile fun ch => ch ≠ nul

/-! ### Lines -/

/-- `'\n'`. -/
def newline : Char := Char.ofNat 10

/-- Length of the buffer `line`. -/
def lineSize : Nat := 256

/-- `fgets(line, sizeof(line), file)` on what is left of the file: the line, and
what is left behind it. -/
def fgets (file : List Char) : List Char × List Char :=
  file.splitAt
    (min (lineSize - 1) ((file.takeWhile fun ch => ch ≠ newline).length + 1))

/-- The lines that `fgets` returns until the end of the file, in at most `fuel`
calls. -/
def readLines : Nat → List Char → List (List Char)
  | 0, _ => []
  | fuel + 1, file =>
      if file = [] then []
      else (fgets file).1 :: readLines fuel (fgets file).2

/-! ### Numbers -/

/-- `strtol` to base ten. -/
def strtol (text : List Char) : Int :=
  let digits (text : List Char) : Int :=
    Nat.ofDigitChars 10 (text.takeWhile Char.isDigit) 0
  match text.dropWhile isSpace with
  | '-' :: text => max (-2 ^ 63) (-digits text)
  | '+' :: text => min (2 ^ 63 - 1) (digits text)
  | text => min (2 ^ 63 - 1) (digits text)

/-- The `unsigned int` that is stored for `atoi(text)`, which is `strtol`
narrowed to an `int`. -/
def atoi (text : List Char) : UInt32 :=
  UInt32.ofNat (strtol text % 2 ^ 32).toNat

/-! ### The loader -/

/-- `strncmp(left, right, n) == 0`. -/
def strncmp (left right : List Char) (n : Nat) : Bool :=
  (content left).take n = (content right).take n

/-- `strmatch`. -/
def strmatch (str expect : List Char) : Bool :=
  strlen str = strlen expect ∧ strncmp str expect (strlen expect)

def processKeyword : List Char := ['p', 'r', 'o', 'c', 'e', 's', 's']
def endKeyword : List Char := ['e', 'n', 'd']
def lifespanKeyword : List Char := ['l', 'i', 'f', 'e', 's', 'p', 'a', 'n']
def prioKeyword : List Char := ['p', 'r', 'i', 'o']
def startKeyword : List Char := ['s', 't', 'a', 'r', 't']
def acquireKeyword : List Char := ['a', 'c', 'q', 'u', 'i', 'r', 'e']

/-- `__forkqueue` and the local variable `p` of `__load_script`. -/
structure Loading where
  forkqueue : List Process
  p : Option Process
deriving DecidableEq, Repr

/-- The `struct process` at a `process` line: all zero but for its `pid`. -/
def newProcess (pid : Nat) : Process :=
  { pid := pid
    status := .ready
    age := 0
    lifespan := 0
    prio := 0
    prioOrig := 0
    startsAt := 0
    resourcesToAcquire := []
    resourcesHolding := [] }

/-- Assign to the fields of `*p`. -/
def Loading.modify (s : Loading) (change : Process → Process) :
    Except LoadFault (Option Loading) :=
  match s.p with
  | some p => .ok (some { s with p := some (change p) })
  | none => .error .nullPointer

/-- One pass of the loop of `__load_script` on the tokens of its line; `none` is
`return false`. -/
def loadCommand (tokens : List (List Char)) (s : Loading) :
    Except LoadFault (Option Loading) :=
  match tokens with
  | [] => .ok (some s)
  | property :: args =>
      if strmatch property processKeyword then
        match args with
        | [pid] => .ok (some { s with p := some (newProcess (atoi pid).toNat) })
        | _ => .error .assertFailed
      else if strmatch property endKeyword then
        match s.p with
        | some p => .ok (some { forkqueue := s.forkqueue ++ [p], p := none })
        | none => .error .assertFailed
      else if strmatch property lifespanKeyword then
        match args with
        | [value] => s.modify fun p => { p with lifespan := (atoi value).toNat }
        | _ => .error .assertFailed
      else if strmatch property prioKeyword then
        match args with
        | [value] => s.modify fun p =>
            { p with prio := (atoi value).toNat, prioOrig := (atoi value).toNat }
        | _ => .error .assertFailed
      else if strmatch property startKeyword then
        match args with
        | [value] => s.modify fun p => { p with startsAt := (atoi value).toNat }
        | _ => .error .assertFailed
      else if strmatch property acquireKeyword then
        match args with
        | [resourceId, atAge, duration] => s.modify fun p =>
            { p with
              resourcesToAcquire := p.resourcesToAcquire ++ [{
                resourceId := (atoi resourceId).toNat
                atAge := (atoi atAge).toNat
                duration := (atoi duration).toNat }] }
        | _ => .error .assertFailed
      else .ok none

/-- The loop of `__load_script` over the lines that are left. -/
def loadLines : List (List Char) → Loading → Except LoadFault (Option Loading)
  | [], s => .ok (some s)
  | line :: rest, s => do
      let tokens ← parseCommand line
      match ← loadCommand tokens s with
      | some s => loadLines rest s
      | none => return none

/-- `__load_script` on a file with this text: `none` if it returns false, else
the processes on `__forkqueue`. -/
def loadScript (file : List Char) : Except LoadFault (Option (List Process)) := do
  let loaded ← loadLines (readLines file.length file) {
    forkqueue := [], p := none }
  return loaded.map Loading.forkqueue

/-! ### What parsing gives -/

section Parsing

variable {ch : Char} {line rest : List Char}

theorem content_cons (notNul : ch ≠ nul) : content (ch :: rest) = ch :: content rest := by
  simp [content, notNul]

theorem stringAt_cons (notNul : ch ≠ nul) (solid : isSpace ch = false) :
    stringAt (ch :: rest) =
      ch :: (content rest).takeWhile fun ch => !isSpace ch := by
  simp [stringAt, content, List.takeWhile_takeWhile, notNul, solid]

/-- The loop finds the words of what is left of the line; if it is within a word,
it first passes over the rest of it. -/
theorem tokensFrom_eq (line : List Char) (tokenStarted : Bool)
    {tokens : List (List Char)} (fits : tokens.length ≤ maxTokens) :
    tokensFrom line tokenStarted tokens =
      let ahead := if tokenStarted then
        (content line).dropWhile fun ch => !isSpace ch else content line
      if tokens.length + (words isSpace ahead).length ≤ maxTokens then
        .ok (tokens ++ words isSpace ahead)
      else .error .outOfRange := by
  induction line generalizing tokenStarted tokens with
  | nil => simp [tokensFrom, content, words_nil, fits]
  | cons ch rest inductionHypothesis =>
      rw [tokensFrom]
      by_cases isNul : ch = nul
      · simp [isNul, content, words_nil, fits]
      rw [if_neg isNul, content_cons isNul]
      cases blank : isSpace ch with
      | true =>
          rw [if_pos rfl, inductionHypothesis false fits]
          simp [blank, words_cons_blank blank]
      | false =>
          rw [if_neg (by simp)]
          cases tokenStarted with
          | true =>
              rw [if_pos rfl, inductionHypothesis true fits]
              simp [blank]
          | false =>
              simp only [Bool.false_eq_true, if_false, words_cons_solid blank,
                stringAt_cons isNul blank, List.length_cons]
              split
              · rename_i room
                rw [inductionHypothesis true
                  (by simpa using Nat.succ_le_of_lt room)]
                simp only [if_true, List.length_append, List.length_singleton,
                  List.append_assoc, List.singleton_append, Nat.add_assoc,
                  Nat.add_comm 1]
              · rename_i full
                rw [if_neg (by omega)]

/-- `parse_command` finds the words in front of the comment, if the line has no
more words than `tokens[]` has entries. -/
theorem parseCommand_eq (line : List Char) :
    parseCommand line =
      if (words isSpace (content line)).length ≤ maxTokens then
        .ok ((words isSpace (content line)).takeWhile
          fun token => token.head? ≠ some '#')
      else .error .outOfRange := by
  rw [parseCommand, tokensFrom_eq line false (Nat.zero_le _)]
  simp only [Bool.false_eq_true, if_false, List.length_nil, Nat.zero_add,
    List.nil_append]
  split
  · rfl
  · rfl

/-- The newline that ends a line makes no difference. -/
theorem words_content_append_newline (line : List Char) :
    words isSpace (content (line ++ [newline])) =
      words isSpace (content line) := by
  unfold content
  rw [List.takeWhile_append]
  split
  · rename_i whole
    have ends : ([newline].takeWhile fun ch => ch ≠ nul) = [newline] := by decide
    rw [(List.takeWhile_prefix _).eq_of_length whole, ends,
      words_append_blank (by decide), words_nil, List.append_nil]
  · rfl

theorem parseCommand_append_newline (line : List Char) :
    parseCommand (line ++ [newline]) = parseCommand line := by
  rw [parseCommand_eq, parseCommand_eq, words_content_append_newline]

end Parsing

/-! ### What reading gives -/

section Reading

variable {line rest : List Char}

theorem takeWhile_newline (rest : List Char) (noNewline : newline ∉ line) :
    (line ++ rest).takeWhile (fun ch => ch ≠ newline) =
      line ++ rest.takeWhile fun ch => ch ≠ newline := by
  refine List.takeWhile_append_of_pos fun ch member => ?_
  have other : ch ≠ newline := by
    rintro rfl
    exact noNewline member
  simpa using other

/-- A line that fits into the buffer is read with its newline. -/
theorem fgets_line (short : line.length + 1 < lineSize)
    (noNewline : newline ∉ line) :
    fgets (line ++ newline :: rest) = (line ++ [newline], rest) := by
  have upTo : min (lineSize - 1) (line.length + 1) = (line ++ [newline]).length := by
    rw [List.length_append, List.length_singleton]
    omega
  have stops : (newline :: rest).takeWhile (fun ch => ch ≠ newline) = [] := by
    simp
  rw [fgets, takeWhile_newline _ noNewline, stops, List.append_nil, upTo]
  rw [List.splitAt_eq, List.append_cons line newline rest, List.take_left,
    List.drop_left]

/-- The last line ends with the file. -/
theorem fgets_last (short : line.length + 1 < lineSize)
    (noNewline : newline ∉ line) : fgets line = (line, []) := by
  have all : line.takeWhile (fun ch => ch ≠ newline) = line := by
    simpa using takeWhile_newline [] noNewline
  have upTo : min (lineSize - 1) (line.length + 1) = line.length + 1 := by omega
  rw [fgets, all, upTo, List.splitAt_eq, List.take_of_length_le (Nat.le_succ _),
    List.drop_of_length_le (Nat.le_succ _)]

/-- So many calls read the whole file. -/
theorem readLines_flatten {fuel : Nat} {file : List Char}
    (enough : file.length ≤ fuel) : (readLines fuel file).flatten = file := by
  induction fuel generalizing file with
  | zero => rw [List.eq_nil_of_length_eq_zero (Nat.le_zero.mp enough)]; rfl
  | succ fuel inductionHypothesis =>
      rw [readLines]
      split
      · rename_i isEmpty
        rw [isEmpty]; rfl
      · rename_i notEmpty
        have positive := List.length_pos_iff.mpr notEmpty
        have shorter : (fgets file).2.length ≤ fuel := by
          simp only [fgets, List.splitAt_eq, List.length_drop, lineSize]
          omega
        rw [List.flatten_cons, inductionHypothesis shorter]
        simp only [fgets, List.splitAt_eq, List.take_append_drop]

theorem loadLines_cons_congr {lines others : List (List Char)}
    (alike : ∀ s, loadLines lines s = loadLines others s) (s : Loading) :
    loadLines (line :: lines) s = loadLines (line :: others) s := by
  simp only [loadLines, alike]

/-- A line is loaded alike with the newline behind it. -/
theorem loadLines_cons_append_newline (lines : List (List Char)) (s : Loading) :
    loadLines ((line ++ [newline]) :: lines) s = loadLines (line :: lines) s := by
  rw [loadLines, loadLines, parseCommand_append_newline]

/-- The loop of `__load_script` loads the lines of the file one after the
other. -/
theorem loadLines_readLines {lines : List (List Char)} {fuel : Nat}
    (short : ∀ line ∈ lines, line.length + 1 < lineSize)
    (noNewline : ∀ line ∈ lines, newline ∉ line)
    (enough : ([newline].intercalate lines).length ≤ fuel) (s : Loading) :
    loadLines (readLines fuel ([newline].intercalate lines)) s =
      loadLines lines s := by
  induction lines generalizing fuel s with
  | nil => cases fuel with
    | zero => rfl
    | succ fuel => rfl
  | cons line lines inductionHypothesis =>
      have lineShort := short line List.mem_cons_self
      have oneLine := noNewline line List.mem_cons_self
      cases lines with
      | nil =>
          rw [List.intercalate_singleton] at enough ⊢
          cases fuel with
          | zero =>
              rw [List.eq_nil_of_length_eq_zero (Nat.le_zero.mp enough)]
              rfl
          | succ fuel =>
              rw [readLines, fgets_last lineShort oneLine]
              split
              · rename_i isEmpty
                rw [isEmpty]
                rfl
              · exact loadLines_cons_congr (fun s => by cases fuel <;> rfl) s
      | cons next lines =>
          rw [List.intercalate_cons_cons] at enough ⊢
          simp only [List.length_append, List.length_singleton] at enough
          obtain ⟨fuel, rfl⟩ : ∃ more, fuel = more + 1 := ⟨fuel - 1, by omega⟩
          rw [readLines, if_neg (by simp), List.append_assoc,
            List.singleton_append, fgets_line lineShort oneLine,
            loadLines_cons_append_newline]
          refine loadLines_cons_congr (fun s => inductionHypothesis ?_ ?_ ?_ s) s
          · exact fun other member => short other (List.mem_cons_of_mem _ member)
          · exact fun other member =>
              noNewline other (List.mem_cons_of_mem _ member)
          · omega

end Reading

/-! ### What is accepted -/

/-- The queue holds processes of blocks, and so does `p`. -/
def FromBlocks (s : Loading) : Prop :=
  (∃ blocks : List ProcessBlock,
    s.forkqueue = blocks.map ProcessBlock.process) ∧
  ∀ p ∈ s.p, ∃ block : ProcessBlock, p = block.process

section Accepted

variable {s : Loading}

theorem FromBlocks.newProcess (fromBlocks : FromBlocks s) (pid : UInt32) :
    FromBlocks { s with p := some (newProcess pid.toNat) } :=
  ⟨fromBlocks.1, fun _ isP => Option.some.inj isP ▸ ⟨{ pid := pid }, rfl⟩⟩

theorem FromBlocks.finish (fromBlocks : FromBlocks s) {p : Process}
    (isP : s.p = some p) :
    FromBlocks { forkqueue := s.forkqueue ++ [p], p := none } := by
  obtain ⟨⟨blocks, queued⟩, begun⟩ := fromBlocks
  obtain ⟨block, rfl⟩ := begun p isP
  refine ⟨⟨blocks ++ [block], ?_⟩, fun _ isNone => nomatch isNone⟩
  rw [List.map_append, queued]
  rfl

/-- A property line stays within the blocks if its assignment does. -/
theorem FromBlocks.modify (fromBlocks : FromBlocks s)
    {change : Process → Process}
    (within : ∀ block : ProcessBlock, ∃ changed : ProcessBlock,
      change block.process = changed.process) :
    Ensures (fun loaded => ∀ s' ∈ loaded, FromBlocks s') (s.modify change) := by
  unfold Loading.modify
  split
  · rename_i p isP
    refine ensures_ok fun s' isLoaded => ?_
    obtain rfl := Option.some.inj isLoaded
    refine ⟨fromBlocks.1, fun q isQ => ?_⟩
    obtain ⟨block, rfl⟩ := fromBlocks.2 p isP
    obtain ⟨changed, eq⟩ := within block
    exact ⟨changed, Option.some.inj isQ ▸ eq⟩
  · exact ensures_error _

theorem loadCommand_fromBlocks (fromBlocks : FromBlocks s)
    (tokens : List (List Char)) :
    Ensures (fun loaded => ∀ s' ∈ loaded, FromBlocks s')
      (loadCommand tokens s) := by
  have one {s' : Loading} (from' : FromBlocks s') : ∀ s'' ∈ some s', FromBlocks s'' :=
    fun _ isS => Option.some.inj isS ▸ from'
  unfold loadCommand
  split
  · exact ensures_ok (one fromBlocks)
  split
  · split
    · exact ensures_ok (one (fromBlocks.newProcess _))
    · exact ensures_error _
  split
  · split
    · rename_i isP
      exact ensures_ok (one (fromBlocks.finish isP))
    · exact ensures_error _
  split
  · split
    · rename_i value
      exact fromBlocks.modify fun block =>
        ⟨{ block with lifespan := atoi value }, rfl⟩
    · exact ensures_error _
  split
  · split
    · rename_i value
      exact fromBlocks.modify fun block =>
        ⟨{ block with prio := atoi value }, rfl⟩
    · exact ensures_error _
  split
  · split
    · rename_i value
      exact fromBlocks.modify fun block =>
        ⟨{ block with start := atoi value }, rfl⟩
    · exact ensures_error _
  split
  · split
    · rename_i resourceId atAge duration
      refine fromBlocks.modify fun block => ⟨{ block with
        acquires := block.acquires ++ [{
          resourceId := atoi resourceId
          atAge := atoi atAge
          duration := atoi duration }] }, ?_⟩
      simp [ProcessBlock.process, AcquireLine.schedule]
    · exact ensures_error _
  · exact ensures_ok fun _ isNone => nomatch isNone

theorem loadLines_fromBlocks (lines : List (List Char))
    (fromBlocks : FromBlocks s) :
    Ensures (fun loaded => ∀ s' ∈ loaded, FromBlocks s')
      (loadLines lines s) := by
  induction lines generalizing s with
  | nil => exact ensures_ok fun _ isS => Option.some.inj isS ▸ fromBlocks
  | cons line lines inductionHypothesis =>
      refine (ensures_self (parseCommand line)).bind fun tokens _ => ?_
      refine (loadCommand_fromBlocks fromBlocks tokens).bind
        fun loaded eachFrom => ?_
      cases loaded with
      | none => exact ensures_ok fun _ isNone => nomatch isNone
      | some s' => exact inductionHypothesis (eachFrom s' rfl)

/-- What `__load_script` accepts is a script of process blocks. -/
theorem loadScript_blocks (file : List Char) :
    Ensures (fun accepted => ∀ forkqueue ∈ accepted, ∃ script : List ProcessBlock,
      forkqueue = script.map ProcessBlock.process) (loadScript file) := by
  have initially : FromBlocks { forkqueue := [], p := none } :=
    ⟨⟨[], rfl⟩, fun _ isNone => nomatch isNone⟩
  refine (loadLines_fromBlocks _ initially).bind fun loaded eachFrom => ?_
  refine ensures_ok fun forkqueue isQueue => ?_
  obtain ⟨s, isS, rfl⟩ := Option.map_eq_some_iff.mp isQueue
  exact (eachFrom s isS).1

/-- These are the processes that the simulation starts with. -/
theorem load_forkqueue (script : List ProcessBlock) :
    (load script).forkqueue.map (load script).procs =
      script.map ProcessBlock.process := by
  have same : (load script).procs = ProcessBlock.process ∘ script.get := rfl
  rw [same, ← List.map_map, load, List.map_get_finRange]

end Accepted

end OsPAs.Sched
