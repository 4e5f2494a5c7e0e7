/-
Module: OsPAs.Shell.State
Purpose: The data of the shell: the tokens of a command line, the array they
  stand in, and the table of aliases.
Trusted boundary: none
Main exports: CommandLine, Slots, Aliases, tokenAt, argVector
-/
import OsPAs.Lib.Strings
import Mathlib.Logic.Function.Basic

namespace OsPAs.Shell

open Lib

/-- `MAX_NR_TOKENS`, the length of `tokens`. -/
def maxNrTokens : Nat := 32

/-- The length of `v_wordCnt`. -/
def nrWordCnts : Nat := 33

/-- `delimiters` of `parse_command`: blank, `\t`, `\r`, `\f`, `\n` and `\v`. -/
def delimiters : List Char := [32, 9, 13, 12, 10, 11].map Char.ofNat

/-- Accesses that C gives no meaning. -/
inductive Fault where
  | outOfBounds
  | nullPointer
  | useAfterFree
deriving DecidableEq, Repr

/-! ### Tokens -/

/-- A command line as `main` hands it to `run_command`: the tokens that
`parse_command` found, which with the terminating NULL stand in `tokens`. -/
structure CommandLine where
  tokens : List CString
  words : ∀ token ∈ tokens, IsWord delimiters token
  fits : tokens.length < maxNrTokens

/-- The contents of the array `tokens`, whatever its entries point to. -/
abbrev SlotsOf (α : Type) : Type := Fin maxNrTokens → Option α

/-- The contents of `tokens`. -/
abbrev Slots : Type := SlotsOf CString

/-- `tokens` as `parse_command` leaves it. -/
def CommandLine.slots (line : CommandLine) : Slots := fun k =>
  line.tokens[k.val]?

/-- `tokens` with NULL written to entry `i`, where a pipe stood. -/
def CommandLine.cutSlots (line : CommandLine) (i : Nat) : Slots := fun k =>
  if k.val = i then none else line.slots k

/-- The entry of `tokens` with index `k`. -/
def slot (k : Int) : Except Fault (Fin maxNrTokens) :=
  if inside : 0 ≤ k ∧ k < maxNrTokens then .ok ⟨k.toNat, by omega⟩
  else .error .outOfBounds

theorem slot_of_lt {k : Nat} (inside : k < maxNrTokens) :
    slot k = .ok ⟨k, inside⟩ := by
  have bounds : (0 : Int) ≤ k ∧ (k : Int) < maxNrTokens :=
    ⟨Int.natCast_nonneg k, Int.ofNat_lt.mpr inside⟩
  rw [slot, dif_pos bounds]
  rfl

theorem slot_of_le {k : Nat} (outside : maxNrTokens ≤ k) :
    slot k = .error .outOfBounds := by
  rw [slot, dif_neg (by omega)]

/-- The string that entry `k` points to. -/
def tokenAt (tokens : Slots) (k : Int) : Except Fault CString := do
  match tokens (← slot k) with
  | none => .error .nullPointer
  | some token => .ok token

/-- The argument vector from entry `k` on, of which `left` entries are left:
the strings up to the first NULL. -/
def argVector (tokens : Slots) : Nat → Nat → Except Fault (List CString)
  | 0, _ => .error .outOfBounds
  | left + 1, k => do
      match tokens (← slot k) with
      | none => .ok []
      | some arg => return arg :: (← argVector tokens left (k + 1))

/-! ### Aliases -/

/-- One alias: `*(pp_keys + i)` and the buffer of `*(pp_vals + i)`. -/
structure Alias where
  key : CString
  val : CString
deriving DecidableEq, Repr

/-- `pp_keys`, `pp_vals` with their length `idx`, and `v_wordCnt`. -/
structure Aliases where
  entries : List Alias
  wordCnt : Fin nrWordCnts → Nat

/-- The table at the start of the shell. -/
def noAliases : Aliases where
  entries := []
  wordCnt := fun _ => 0

/-- `pp_vals[pos]`. -/
def Aliases.valAt (s : Aliases) (pos : Nat) : Except Fault CString :=
  match s.entries[pos]? with
  | none => .error .outOfBounds
  | some entry => .ok entry.val

/-- `pp_vals[pos] = val`. -/
def Aliases.setVal (s : Aliases) (pos : Nat) (val : CString) : Aliases :=
  { s with
    entries := s.entries.modify pos fun entry => { entry with val := val } }

/-- The entry of `v_wordCnt` with index `pos`. -/
def wordCntCell (pos : Nat) : Except Fault (Fin nrWordCnts) :=
  if inside : pos < nrWordCnts then .ok ⟨pos, inside⟩ else .error .outOfBounds

end OsPAs.Shell
