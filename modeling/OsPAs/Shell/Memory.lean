/-
Module: OsPAs.Shell.Memory
Purpose: The shell on its memory: the tokens of a line, the keys and the values of
  the aliases are strings on the heap, `pp_keys` and `pp_vals` are arrays on the
  heap that grow with every new key, and a child process works on a copy.
Trusted boundary: `malloc` and `realloc` do not fail
Main exports: Memory, Pointers, InMemory.defineAlias, InMemory.child,
  InMemory.runCommand, InMemory.freeCommandTokens, InMemory.mainLoop
-/
import OsPAs.Lib.HeapStrings
import OsPAs.Shell.Command

namespace OsPAs.Shell

open Lib

/-- The globals of `pa1.c` and what is on the heap: strings, and arrays of
pointers to strings. -/
structure Memory where
  strings : Heap Char
  arrays : Heap Address
  ppKeys : Option Address
  ppVals : Option Address
  idx : Nat
  wordCnt : Fin nrWordCnts → Nat

/-- The memory at the start of the shell. -/
def Memory.start : Memory where
  strings := .empty
  arrays := .empty
  ppKeys := none
  ppVals := none
  idx := 0
  wordCnt := fun _ => 0

/-- The contents of `tokens`. -/
abbrev Pointers : Type := SlotsOf Address

/-- The fault of an access to an array of fixed length. -/
def heapFault : Fault → HeapFault
  | .outOfBounds => .outOfBounds
  | .nullPointer => .nullPointer
  | .useAfterFree => .notAllocated

namespace InMemory

/-! ### Reading -/

/-- Entry `k` of `tokens`. -/
def entry (tokens : Pointers) (k : Int) : Except HeapFault (Option Address) := do
  return tokens (← (slot k).mapError heapFault)

/-- The string that entry `k` points to. -/
def tokenAt (h : Heap Char) (tokens : Pointers) (k : Int) :
    Except HeapFault CString := do
  h.stringAt (← Heap.deref (← entry tokens k))

/-- `*(pp_keys + i)`. -/
def keyAt (m : Memory) (i : Nat) : Except HeapFault Address := do
  m.arrays.load (← Heap.deref m.ppKeys) i

/-- `*(pp_vals + i)`. -/
def valAt (m : Memory) (i : Nat) : Except HeapFault Address := do
  m.arrays.load (← Heap.deref m.ppVals) i

/-- The loop of `find_alias_index` over `left` keys from `i` on. -/
def findFrom (m : Memory) (token : Option Address) (i : Nat) :
    Nat → Except HeapFault (Option Nat)
  | 0 => .ok none
  | left + 1 => do
      let key ← m.strings.stringAt (← keyAt m i)
      if key = (← m.strings.stringAt (← Heap.deref token)) then return some i
      else findFrom m token (i + 1) left

def findAliasIndex (m : Memory) (token : Option Address) :
    Except HeapFault (Option Nat) :=
  findFrom m token 0 m.idx

/-! ### Defining an alias -/

/-- What the loop that restores a string writes for a character. -/
def restored (ch : Char) : Char := if ch = nul then space else ch

def getValueWordCnt (m : Memory) (index : Nat) :
    Except HeapFault (Nat × Memory) := do
  let val ← valAt m index
  let length := (← m.strings.stringAt val).length
  let (words, strings) ← m.strings.strtokAt [space] val
  let strings ← strings.changeAll val restored 0 length
  return (words.length, { m with strings := strings })

/-- A new key at the end of the arrays, which get one entry longer.  The new entry
of `pp_vals` is not written yet. -/
def addKey (m : Memory) (token : Option Address) :
    Except HeapFault (Nat × Memory) := do
  let text ← m.strings.stringAt (← Heap.deref token)
  let (keys, arrays) ← m.arrays.realloc m.ppKeys (m.idx + 1)
  let (vals, arrays) ← arrays.realloc m.ppVals (m.idx + 1)
  let (newKey, strings) ← m.strings.strdup text
  let arrays ← arrays.store keys m.idx newKey
  return (m.idx, {
    strings := strings
    arrays := arrays
    ppKeys := some keys
    ppVals := some vals
    idx := m.idx + 1
    wordCnt := m.wordCnt })

/-- The index of the key, which is added if it is not there yet; else its value is
freed. -/
def keyIndex (m : Memory) (token : Option Address) :
    Except HeapFault (Nat × Memory) := do
  match ← findAliasIndex m token with
  | none => addKey m token
  | some pos => return (pos, { m with strings := ← m.strings.free (← valAt m pos) })

/-- The sum of `strlen(tokens[i])` over `left` tokens from `i` on. -/
def totLength (h : Heap Char) (tokens : Pointers) (i : Nat) :
    Nat → Except HeapFault Nat
  | 0 => .ok 0
  | left + 1 => do
      let length := (← tokenAt h tokens i).length
      return length + (← totLength h tokens (i + 1) left)

/-- Puts `left` tokens from `i` on behind the new value, with a blank behind each
but the last of the line. -/
def catTokens (h : Heap Char) (tokens : Pointers) (newValue : Address)
    (nrTokens i : Nat) : Nat → Except HeapFault (Heap Char)
  | 0 => .ok h
  | left + 1 => do
      let h ← h.strcat newValue (← tokenAt h tokens i)
      let h ← if i ≠ nrTokens - 1 then h.strcat newValue [space] else .ok h
      catTokens h tokens newValue nrTokens (i + 1) left

/-- The value made of the tokens from the third on. -/
def newValue (h : Heap Char) (tokens : Pointers) (nrTokens : Nat) :
    Except HeapFault (Address × Heap Char) := do
  let length ← totLength h tokens 2 (nrTokens - 2)
  -- an unsigned sum, which for two tokens wraps around and comes back to 0
  let size : Int := (length : Int) + nrTokens - 3 + 1
  let (value, h) := h.malloc size.toNat
  let h ← h.store value 0 nul
  return (value, ← catTokens h tokens value nrTokens 2 (nrTokens - 2))

/-- `alias key words`. -/
def defineAlias (m : Memory) (tokens : Pointers) (nrTokens : Nat) :
    Except HeapFault Memory := do
  let (pos, m) ← keyIndex m (← entry tokens 1)
  let (value, strings) ← newValue m.strings tokens nrTokens
  let arrays ← m.arrays.store (← Heap.deref m.ppVals) pos value
  let (count, m) ←
    getValueWordCnt { m with strings := strings, arrays := arrays } pos
  let cell ← (wordCntCell pos).mapError heapFault
  return { m with wordCnt := Function.update m.wordCnt cell count }

/-! ### The expansion of aliases -/

/-- The table as far as `space_back_wordCnt` reads it. -/
def counts (m : Memory) : Aliases where
  entries := []
  wordCnt := m.wordCnt

/-- Writes copies of the words to the entries from `k` on. -/
def writeWords (h : Heap Char) (tokens : Pointers) (k : Nat) :
    List CString → Except HeapFault (Pointers × Heap Char)
  | [] => .ok (tokens, h)
  | word :: rest => do
      let (tmp, h) ← h.strdup word
      let cell ← (slot k).mapError heapFault
      writeWords h (Function.update tokens cell (some tmp)) (k + 1) rest

def replaceTokenWithAlias (m : Memory) (tokens : Pointers)
    (base tokIdx valIdx : Nat) : Except HeapFault (Pointers × Memory) := do
  let val ← valAt m valIdx
  let length := (← m.strings.stringAt val).length
  let (words, strings) ← m.strings.strtokAt [space] val
  let (tokens, strings) ← writeWords strings tokens (base + tokIdx) words
  let strings ← strings.changeAll val restored 0 length
  return (tokens, { m with strings := strings })

/-- `free`, which does nothing for NULL. -/
def freeEntry (h : Heap Char) (token : Option Address) :
    Except HeapFault (Heap Char) :=
  match token with
  | none => .ok h
  | some p => h.free p

/-- What the loop at `_ADDED_TOKENS` works on. -/
structure Expansion where
  memory : Memory
  tokens : Pointers
  nrTokens : Nat
  i : Nat

/-- One pass of the loop at `_ADDED_TOKENS`, the increment of `i` included. -/
def addedToken (base : Nat) (c : Expansion) : Except HeapFault Expansion := do
  let token ← entry c.tokens (base + c.i)
  match ← findAliasIndex c.memory token with
  | none => return { c with i := c.i + 1 }
  | some pos => do
      let tokens ← (spaceBackWordCnt (counts c.memory) c.tokens base c.nrTokens
        c.i pos).mapError heapFault
      let strings ← freeEntry c.memory.strings (← entry tokens (base + c.i))
      let (tokens, memory) ← replaceTokenWithAlias
        { c.memory with strings := strings } tokens base c.i pos
      let wordCnt := memory.wordCnt (← (wordCntCell pos).mapError heapFault)
      -- `i += wordCnt - 1` and `++i`
      return {
        memory := memory
        tokens := tokens
        nrTokens := c.nrTokens + wordCnt - 1
        i := c.i + wordCnt }

/-- The loop at `_ADDED_TOKENS`, in at most `fuel` passes. -/
def addedTokens (base : Nat) : Nat → Expansion → Except HeapFault Expansion
  | 0, c => .ok c
  | fuel + 1, c =>
      if c.i < c.nrTokens then do addedTokens base fuel (← addedToken base c)
      else .ok c

/-- The strings that the entries from `k` on point to, up to the first NULL. -/
def argVector (h : Heap Char) (tokens : Pointers) :
    Nat → Nat → Except HeapFault (List CString)
  | 0, _ => .error .outOfBounds
  | left + 1, k => do
      match ← entry tokens k with
      | none => return []
      | some p => return (← h.stringAt p) :: (← argVector h tokens left (k + 1))

/-- What a child process that starts with this memory hands to `execvp`. -/
def child (m : Memory) (tokens : Pointers) (base nrTokens : Nat) :
    Except HeapFault (List CString) := do
  let c ← addedTokens base nrTokens
    { memory := m, tokens := tokens, nrTokens := nrTokens, i := 0 }
  argVector c.memory.strings c.tokens (maxNrTokens - base) base

/-! ### Commands -/

/-- What a command does besides changing the memory. -/
inductive Action where
  | chdir (dir : Option CString)
  | print (key val : CString)
  | exec (child : Except HeapFault (List CString))

/-- How `run_command` returns, and how it leaves `tokens`. -/
structure Reply where
  goesOn : Bool
  memory : Memory
  tokens : Pointers
  actions : List Action

/-- The first pipe among `left` tokens from `i` on. -/
def findPipe (h : Heap Char) (tokens : Pointers) (i : Nat) :
    Nat → Except HeapFault (Option Nat)
  | 0 => .ok none
  | left + 1 => do
      if (← tokenAt h tokens i) = pipeToken then return some i
      else findPipe h tokens (i + 1) left

/-- The lines that `alias` prints for `left` aliases from `i` on. -/
def printFrom (m : Memory) (i : Nat) : Nat → Except HeapFault (List Action)
  | 0 => .ok []
  | left + 1 => do
      let key ← m.strings.stringAt (← keyAt m i)
      let val ← m.strings.stringAt (← valAt m i)
      return .print key val :: (← printFrom m (i + 1) left)

/-- `run_command`. -/
def runCommand (m : Memory) (tokens : Pointers) (nrTokens : Nat) :
    Except HeapFault Reply := do
  match ← findPipe m.strings tokens 0 nrTokens with
  | some i => do
      let tokens := Function.update tokens (← (slot i).mapError heapFault) none
      let nrTokensRight := nrTokens - i - 1
      return {
        goesOn := true
        memory := m
        tokens := tokens
        actions := [.exec (child m tokens (i + 1) nrTokensRight),
          .exec (child m tokens 0 i)] }
  | none =>
      if nrTokens = 0 then
        return { goesOn := false, memory := m, tokens := tokens, actions := [] }
      else
        let command ← tokenAt m.strings tokens 0
        if command = exitToken then
          return { goesOn := false, memory := m, tokens := tokens, actions := [] }
        else if command = cdToken then
          if nrTokens = 1 then
            return {
              goesOn := true
              memory := m
              tokens := tokens
              actions := [.chdir none] }
          else
            let dir ← tokenAt m.strings tokens 1
            return {
              goesOn := true
              memory := m
              tokens := tokens
              actions := [.chdir (if dir = homeToken then none else some dir)] }
        else if command = aliasToken then
          if nrTokens = 1 then
            return {
              goesOn := true
              memory := m
              tokens := tokens
              actions := ← printFrom m 0 m.idx }
          else
            return {
              goesOn := true
              memory := ← defineAlias m tokens nrTokens
              tokens := tokens
              actions := [] }
        else
          return {
            goesOn := true
            memory := m
            tokens := tokens
            actions := [.exec (child m tokens 0 nrTokens)] }

/-! ### The main loop -/

/-- The copies of the tokens that `parse_command` makes. -/
def strdupAll (h : Heap Char) :
    List CString → Except HeapFault (List Address × Heap Char)
  | [] => .ok ([], h)
  | token :: rest => do
      let (p, h) ← h.strdup token
      let (ps, h) ← strdupAll h rest
      return (p :: ps, h)

/-- `free_command_tokens` from entry `k` on, of which `left` are left. -/
def freeCommandTokens (h : Heap Char) (tokens : Pointers) :
    Nat → Nat → Except HeapFault (Heap Char)
  | 0, _ => .error .outOfBounds
  | left + 1, k => do
      match ← entry tokens k with
      | none => return h
      | some p => freeCommandTokens (← h.free p) tokens left (k + 1)

/-- One pass of the loop of `main` for a line with tokens. -/
def runLine (line : CommandLine) (m : Memory) : Except HeapFault Reply := do
  let (ps, strings) ← strdupAll m.strings line.tokens
  let reply ← runCommand { m with strings := strings } (fun k => ps[k.val]?)
    line.tokens.length
  let strings ←
    freeCommandTokens reply.memory.strings reply.tokens maxNrTokens 0
  return { reply with memory := { reply.memory with strings := strings } }

/-- The loop of `main` over the command lines it reads. -/
def mainLoop :
    List CommandLine → Memory → Except HeapFault (Memory × List Action)
  | [], m => .ok (m, [])
  | line :: lines, m =>
      if line.tokens = [] then mainLoop lines m
      else do
        let reply ← runLine line m
        if reply.goesOn then
          let (m, actions) ← mainLoop lines reply.memory
          return (m, reply.actions ++ actions)
        else return (reply.memory, reply.actions)

end InMemory

end OsPAs.Shell
