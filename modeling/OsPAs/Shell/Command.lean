/-
Module: OsPAs.Shell.Command
Purpose: `run_command` with the alias table it keeps and the expansion of aliases
  in its child processes, and the main loop over the command lines.
Trusted boundary: none
Main exports: getValueWordCnt, findAliasIndex, spaceBackWordCnt,
  replaceTokenWithAlias, defineAlias, addedTokens, runCommand, mainLoop
-/
import OsPAs.Shell.State

namespace OsPAs.Shell

open Lib

/-! ### The alias table -/

/-- The loop that puts a blank where a string of length `length` was cut up. -/
def restoreBlanks (length : Nat) (text : CString) : CString :=
  (text.take length).map (fun ch => if ch = nul then space else ch) ++
    text.drop length

def findAliasIndex (s : Aliases) (token : CString) : Option Nat :=
  s.entries.findIdx? fun entry => entry.key = token

/-- The number of words of value `index`; `strtok` cuts the value up, and the loop
at the end restores it. -/
def getValueWordCnt (s : Aliases) (index : Nat) :
    Except Fault (Nat × Aliases) := do
  let val ← s.valAt index
  let length := strlen val
  let (words, cursor) := strtokAll [space] (length + 1) ⟨[], val⟩
  let restored := restoreBlanks length (cursor.before ++ cursor.after)
  return (words.length, s.setVal index restored)

/-- The value of a new alias: the tokens put behind `value` by `strcat`, with a
blank behind each but the last. -/
def catTokens (value : CString) : List CString → CString
  | [] => value
  | [token] => value ++ token
  | token :: rest => catTokens (value ++ token ++ [space]) rest

/-- The index of `key`, which is added at the end if it is not there yet. -/
def keyIndex (key : CString) (s : Aliases) : Nat × Aliases :=
  match findAliasIndex s key with
  | none => (s.entries.length, { s with entries := s.entries ++ [⟨key, []⟩] })
  | some pos => (pos, s)

/-- `alias key words`. -/
def defineAlias (key : CString) (words : List CString) (s : Aliases) :
    Except Fault Aliases := do
  let (pos, s) := keyIndex key s
  let s := s.setVal pos (catTokens [] words)
  let cell ← wordCntCell pos
  let (count, s) ← getValueWordCnt s pos
  return { s with wordCnt := Function.update s.wordCnt cell count }

/-! ### The expansion of aliases -/

/-- The values of `for (i = high; i >= low; --i)`. -/
def downFrom (high low : Int) : List Int :=
  (List.range (high + 1 - low).toNat).map fun k : Nat => high - k

/-- Entry `k` of `tokens` takes what entry `source` holds. -/
def moveToken {α : Type} (tokens : SlotsOf α) (k source : Int) :
    Except Fault (SlotsOf α) := do
  return Function.update tokens (← slot k) (tokens (← slot source))

/-- Makes room behind token `tokIdx` for the words of alias `valIdx`; `base` is
the entry of the array that `pp_tok` points to. -/
def spaceBackWordCnt {α : Type} (s : Aliases) (tokens : SlotsOf α) (base : Nat)
    (curNrTokens tokIdx valIdx : Nat) : Except Fault (SlotsOf α) := do
  let wordCnt : Int := s.wordCnt (← wordCntCell valIdx)
  let tokens ← (downFrom (curNrTokens + wordCnt - 2) (tokIdx + wordCnt)).foldlM
    (fun tokens i => moveToken tokens (base + i) (base + (i - wordCnt + 1)))
    tokens
  return Function.update tokens (← slot (base + (curNrTokens + wordCnt - 1))) none

/-- Writes copies of the words to the entries from `k` on. -/
def writeWords (tokens : Slots) (k : Nat) : List CString → Except Fault Slots
  | [] => .ok tokens
  | word :: rest => do
      writeWords (Function.update tokens (← slot k) (some word)) (k + 1) rest

/-- Replaces token `tokIdx` by the words of alias `valIdx`; `strtok` cuts the
value up, and the loop at the end restores it. -/
def replaceTokenWithAlias (s : Aliases) (tokens : Slots) (base : Nat)
    (tokIdx valIdx : Nat) : Except Fault (Slots × Aliases) := do
  let val ← s.valAt valIdx
  let length := strlen val
  let (words, cursor) := strtokAll [space] (length + 1) ⟨[], val⟩
  let tokens ← writeWords tokens (base + tokIdx) words
  let restored := restoreBlanks length (cursor.before ++ cursor.after)
  return (tokens, s.setVal valIdx restored)

/-- `free(tokens[i])` for a token that `wordCnt` words are to replace: whether the
entry still points to the freed string behind it.  It does if no word is written
there, and it is not NULL. -/
def freeToken (tokens : Slots) (k wordCnt : Nat) : Except Fault Bool := do
  return wordCnt = 0 ∧ (tokens (← slot k)).isSome

/-- What the loop at `_ADDED_TOKENS` works on, and whether entry `i` points to a
string that has been freed. -/
structure Expansion where
  aliases : Aliases
  tokens : Slots
  nrTokens : Nat
  i : Nat
  freed : Bool := false

/-- The string that `find_alias_index` reads in entry `i`. -/
def currentToken (base : Nat) (c : Expansion) : Except Fault CString :=
  if c.freed then .error .useAfterFree else tokenAt c.tokens (base + c.i)

/-- One pass of the loop at `_ADDED_TOKENS`, the increment of `i` included. -/
def addedToken (base : Nat) (c : Expansion) : Except Fault Expansion := do
  let token ← currentToken base c
  match findAliasIndex c.aliases token with
  | none => return { c with i := c.i + 1 }
  | some pos => do
      let tokens ← spaceBackWordCnt c.aliases c.tokens base c.nrTokens c.i pos
      let cell ← wordCntCell pos
      let freed ← freeToken tokens (base + c.i) (c.aliases.wordCnt cell)
      let (tokens, aliases) ←
        replaceTokenWithAlias c.aliases tokens base c.i pos
      let wordCnt := aliases.wordCnt cell
      -- `i += wordCnt - 1` and `++i`
      return {
        aliases := aliases
        tokens := tokens
        nrTokens := c.nrTokens + wordCnt - 1
        i := c.i + wordCnt
        freed := freed }

/-- The loop at `_ADDED_TOKENS`, in at most `fuel` passes: each brings `i` nearer
to `nr_tokens` by one. -/
def addedTokens (base : Nat) : Nat → Expansion → Except Fault Expansion
  | 0, c => .ok c
  | fuel + 1, c =>
      if c.i < c.nrTokens then do addedTokens base fuel (← addedToken base c)
      else .ok c

/-- What a child process hands to `execvp`, and its copy of the aliases. -/
structure Exec where
  argv : List CString
  aliases : Aliases

/-- A child process, from `_ADDED_TOKENS` to `execvp`. -/
def child (s : Aliases) (tokens : Slots) (base nrTokens : Nat) :
    Except Fault Exec := do
  let c ← addedTokens base nrTokens
    { aliases := s, tokens := tokens, nrTokens := nrTokens, i := 0 }
  return { argv := ← argVector c.tokens (maxNrTokens - base) base
           aliases := c.aliases }

/-! ### Commands -/

/-- What a command does besides defining an alias: it changes the directory (to
the home directory if none is given), prints an alias, or forks a child that
calls `execvp` unless it faults first. -/
inductive Action where
  | chdir (dir : Option CString)
  | print (entry : Alias)
  | exec (child : Except Fault Exec)

/-- How `run_command` returns. -/
structure Reply where
  goesOn : Bool
  aliases : Aliases
  actions : List Action

def pipeToken : CString := ['|']

def exitToken : CString := ['e', 'x', 'i', 't']

def cdToken : CString := ['c', 'd']

def homeToken : CString := ['~']

def aliasToken : CString := ['a', 'l', 'i', 'a', 's']

/-- `run_command`. -/
def runCommand (line : CommandLine) (s : Aliases) : Except Fault Reply :=
  match line.tokens.findIdx? fun token => token = pipeToken with
  | some i =>
      -- each side is expanded in its own child, in a copy of the memory
      let nrTokensRight := line.tokens.length - i - 1
      .ok {
        goesOn := true
        aliases := s
        actions := [.exec (child s (line.cutSlots i) (i + 1) nrTokensRight),
          .exec (child s (line.cutSlots i) 0 i)] }
  | none =>
      match line.tokens with
      | [] => .ok { goesOn := false, aliases := s, actions := [] }
      | command :: args =>
          if command = exitToken then
            .ok { goesOn := false, aliases := s, actions := [] }
          else if command = cdToken then
            let dir := args.head?.filter fun dir => dir ≠ homeToken
            .ok { goesOn := true, aliases := s, actions := [.chdir dir] }
          else if command = aliasToken then
            match args with
            | [] =>
                .ok {
                  goesOn := true
                  aliases := s
                  actions := s.entries.map .print }
            | key :: words => do
                let s ← defineAlias key words s
                return { goesOn := true, aliases := s, actions := [] }
          else
            .ok {
              goesOn := true
              aliases := s
              actions :=
                [.exec (child s line.slots 0 line.tokens.length)] }

/-- The loop of `main` over the command lines it reads. -/
def mainLoop : List CommandLine → Aliases → Except Fault (Aliases × List Action)
  | [], s => .ok (s, [])
  | line :: lines, s =>
      if line.tokens = [] then mainLoop lines s
      else do
        let reply ← runCommand line s
        if reply.goesOn then
          let (s, actions) ← mainLoop lines reply.aliases
          return (s, reply.actions ++ actions)
        else return (reply.aliases, reply.actions)

end OsPAs.Shell
