/-
Module: OsPAs.Lib.Numerals
Purpose: Numbers in text: what `strtoimax` to base zero reads, the numerals it
  reads whole, and the conversions of `printf` that pad a number with blanks.
Trusted boundary: none
Main exports: digitOf, valueOf, strtoimax, Denotes, Denotes.strtoimax, decimal,
  signedDecimal, padLeft, padRight, padLeft_injective, padRight_injective
-/
import Mathlib.Algebra.Group.Int.Defs
import Mathlib.Algebra.Group.Nat.Defs
import Mathlib.Data.List.TakeWhile
import Mathlib.Tactic.Common
import OsPAs.Lib.Strings

namespace OsPAs.Lib

/-! ### Reading -/

/-- The value of a digit; letters go on behind the ten digits. -/
def digitOf (ch : Char) : Option Nat :=
  if ch.isDigit then some (ch.toNat - 48)
  else if ch.isLower then some (ch.toNat - 87)
  else if ch.isUpper then some (ch.toNat - 55)
  else none

/-- The character is a digit of this base. -/
def isDigitOf (base : Nat) (ch : Char) : Bool :=
  (digitOf ch).any fun digit => digit < base

/-- The number that the digits denote. -/
def valueOf (base : Nat) (digits : List Char) : Nat :=
  digits.foldl (fun value ch => base * value + (digitOf ch).getD 0) 0

/-- What `strtoimax` to base zero reads behind the sign: the prefix tells
hexadecimal and octal numerals, and the first other character ends it. -/
def magnitude : List Char → Nat
  | '0' :: x :: text =>
      if x = 'x' ∨ x = 'X' then valueOf 16 (text.takeWhile (isDigitOf 16))
      else valueOf 8 ((x :: text).takeWhile (isDigitOf 8))
  | text => valueOf 10 (text.takeWhile (isDigitOf 10))

/-- `strtoimax(text, NULL, 0)` on a text without blanks in front. -/
def strtoimax : List Char → Int
  | '-' :: text => max (-2 ^ 63) (-magnitude text)
  | '+' :: text => min (2 ^ 63 - 1) (magnitude text)
  | text => min (2 ^ 63 - 1) (magnitude text)

/-- A numeral without a sign. -/
inductive IsMagnitude : List Char → Nat → Prop where
  | decimal {first : Char} {rest : List Char} (notZero : first ≠ '0')
      (digits : (first :: rest).all (isDigitOf 10)) :
      IsMagnitude (first :: rest) (valueOf 10 (first :: rest))
  | octal {rest : List Char} (digits : rest.all (isDigitOf 8)) :
      IsMagnitude ('0' :: rest) (valueOf 8 rest)
  | hexadecimal {x first : Char} {rest : List Char} (isX : x = 'x' ∨ x = 'X')
      (digits : (first :: rest).all (isDigitOf 16)) :
      IsMagnitude ('0' :: x :: first :: rest) (valueOf 16 (first :: rest))

/-- A numeral of C for an integer, with or without a sign. -/
inductive Denotes : List Char → Int → Prop where
  | plain {text : List Char} {m : Nat} (isMagnitude : IsMagnitude text m) :
      Denotes text m
  | plus {text : List Char} {m : Nat} (isMagnitude : IsMagnitude text m) :
      Denotes ('+' :: text) m
  | minus {text : List Char} {m : Nat} (isMagnitude : IsMagnitude text m) :
      Denotes ('-' :: text) (-m)

section Reading

variable {text : List Char} {m : Nat} {value : Int}

theorem takeWhile_digits {base : Nat} (digits : text.all (isDigitOf base)) :
    text.takeWhile (isDigitOf base) = text :=
  List.takeWhile_eq_self_iff.mpr (List.all_eq_true.mp digits)

theorem IsMagnitude.magnitude (isMagnitude : IsMagnitude text m) :
    magnitude text = m := by
  cases isMagnitude with
  | @decimal first rest notZero digits =>
      rw [OsPAs.Lib.magnitude]
      · rw [takeWhile_digits digits]
      · rintro x text isZero
        exact notZero (List.cons.inj isZero).1
  | @octal rest digits =>
      cases rest with
      | nil => rfl
      | cons x rest =>
          have notX : ¬ (x = 'x' ∨ x = 'X') := by
            have isDigit := List.all_eq_true.mp digits x List.mem_cons_self
            rintro (rfl | rfl)
            · revert isDigit; decide
            · revert isDigit; decide
          rw [OsPAs.Lib.magnitude, if_neg notX, takeWhile_digits digits]
  | hexadecimal isX digits =>
      rw [OsPAs.Lib.magnitude, if_pos isX, takeWhile_digits digits]

/-- A numeral does not begin with a sign. -/
theorem IsMagnitude.unsigned (isMagnitude : IsMagnitude text m) :
    ∃ first rest, text = first :: rest ∧ first ≠ '-' ∧ first ≠ '+' := by
  have digit {first : Char} (isDigit : isDigitOf 10 first) :
      first ≠ '-' ∧ first ≠ '+' := by
    constructor
    · rintro rfl; revert isDigit; decide
    · rintro rfl; revert isDigit; decide
  cases isMagnitude with
  | decimal _ digits =>
      exact ⟨_, _, rfl, digit (List.all_eq_true.mp digits _ List.mem_cons_self)⟩
  | octal => exact ⟨_, _, rfl, by decide, by decide⟩
  | hexadecimal => exact ⟨_, _, rfl, by decide, by decide⟩

/-- A numeral within the bounds of `intmax_t` is read whole. -/
theorem Denotes.strtoimax (denotes : Denotes text value)
    (above : -2 ^ 63 ≤ value) (below : value < 2 ^ 63) :
    strtoimax text = value := by
  cases denotes with
  | plain isMagnitude =>
      have reads := isMagnitude.magnitude
      obtain ⟨first, rest, rfl, notMinus, notPlus⟩ := isMagnitude.unsigned
      rw [OsPAs.Lib.strtoimax, reads]
      · omega
      · rintro text begins
        exact notMinus (List.cons.inj begins).1
      · rintro text begins
        exact notPlus (List.cons.inj begins).1
  | plus isMagnitude =>
      rw [OsPAs.Lib.strtoimax, isMagnitude.magnitude]
      omega
  | minus isMagnitude =>
      rw [OsPAs.Lib.strtoimax, isMagnitude.magnitude]
      omega

end Reading

/-! ### Printing -/

/-- `%u`. -/
def decimal (value : Nat) : List Char := Nat.toDigits 10 value

/-- `%d`. -/
def signedDecimal (value : Int) : List Char :=
  if value < 0 then '-' :: decimal value.natAbs else decimal value.natAbs

/-- A width in front of a conversion: blanks on the left. -/
def padLeft (width : Nat) (text : List Char) : List Char :=
  List.replicate (width - text.length) space ++ text

/-- A negative width: blanks on the right. -/
def padRight (width : Nat) (text : List Char) : List Char :=
  text ++ List.replicate (width - text.length) space

section Printing

variable {width : Nat} {text text' : List Char} {value value' : Int}

theorem isDigit_of_mem_decimal {number : Nat} {ch : Char}
    (member : ch ∈ decimal number) : ch.isDigit :=
  Nat.isDigit_of_mem_toDigits (by decide) (by decide) member

theorem decimal_injective {number number' : Nat}
    (same : decimal number = decimal number') : number = number' := by
  have read := congrArg (fun text => Nat.ofDigitChars 10 text 0) same
  simpa only [decimal, Nat.ofDigitChars_ten_toDigits] using read

/-- The characters of a number. -/
theorem of_mem_signedDecimal {ch : Char} (member : ch ∈ signedDecimal value) :
    ch = '-' ∨ ch.isDigit := by
  unfold signedDecimal at member
  split at member
  · exact (List.mem_cons.mp member).imp id isDigit_of_mem_decimal
  · exact Or.inr (isDigit_of_mem_decimal member)

/-- No number contains a character that is neither a digit nor the sign. -/
theorem not_mem_signedDecimal {ch : Char} (notMinus : ch ≠ '-')
    (noDigit : ch.isDigit = false) : ch ∉ signedDecimal value := by
  intro member
  rcases of_mem_signedDecimal member with isMinus | isDigit
  · exact notMinus isMinus
  · simp [noDigit] at isDigit

theorem signedDecimal_injective (same : signedDecimal value = signedDecimal value') :
    value = value' := by
  have noMinus (number : Nat) : '-' ∉ decimal number := fun member =>
    absurd (isDigit_of_mem_decimal member) (by decide)
  unfold signedDecimal at same
  split at same <;> split at same
  · have abs := decimal_injective (List.cons.inj same).2
    omega
  · exact absurd (same ▸ List.mem_cons_self) (noMinus _)
  · exact absurd (same ▸ List.mem_cons_self) (noMinus _)
  · have abs := decimal_injective same
    omega

/-- The blanks of the padding can be told from the text. -/
theorem filter_solid (solid : space ∉ text) :
    text.filter (fun ch => ch ≠ space) = text := by
  refine List.filter_eq_self.mpr fun ch member => ?_
  have other : ch ≠ space := by
    rintro rfl
    exact solid member
  simpa using other

theorem filter_padLeft (solid : space ∉ text) :
    (padLeft width text).filter (fun ch => ch ≠ space) = text := by
  rw [padLeft, List.filter_append, List.filter_replicate, filter_solid solid]
  simp

theorem filter_padRight (solid : space ∉ text) :
    (padRight width text).filter (fun ch => ch ≠ space) = text := by
  rw [padRight, List.filter_append, List.filter_replicate, filter_solid solid]
  simp

/-- Padding does not hide a text without blanks. -/
theorem padLeft_injective (solid : space ∉ text) (solid' : space ∉ text')
    (same : padLeft width text = padLeft width text') : text = text' := by
  rw [← filter_padLeft solid, same, filter_padLeft solid']

theorem padRight_injective (solid : space ∉ text) (solid' : space ∉ text')
    (same : padRight width text = padRight width text') : text = text' := by
  rw [← filter_padRight solid, same, filter_padRight solid']

end Printing

end OsPAs.Lib
