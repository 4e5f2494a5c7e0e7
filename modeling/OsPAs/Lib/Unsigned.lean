/-
Module: OsPAs.Lib.Unsigned
Purpose: C arithmetic on `unsigned int`: what an assignment stores, subtraction
  with borrow, and what a pointer to `int` reads from an `unsigned int`.
Trusted boundary: none
Main exports: toUInt, subUInt, asInt, asInt_eq_one, two_le_asInt
-/
import Mathlib.Algebra.Group.Int.Defs
import Mathlib.Algebra.Group.Nat.Defs
import Mathlib.Tactic.Common

namespace OsPAs.Lib

/-- Value stored by an assignment to an `unsigned int`. -/
def toUInt (value : Nat) : Nat := value % 2 ^ 32

/-- `left - right` on `unsigned int`, with the borrow written out. -/
def subUInt (left right : Nat) : Nat :=
  if right ≤ left then left - right else left + 2 ^ 32 - right

/-- What a pointer to `int` reads where an `unsigned int` is stored. -/
def asInt (value : Nat) : Int :=
  if value < 2 ^ 31 then value else value - 2 ^ 32

theorem toUInt_of_lt {value : Nat} (small : value < 2 ^ 32) :
    toUInt value = value :=
  Nat.mod_eq_of_lt small

theorem toUInt_lt (value : Nat) : toUInt value < 2 ^ 32 :=
  Nat.mod_lt value (by decide)

theorem subUInt_of_le {left right : Nat} (le : right ≤ left) :
    subUInt left right = left - right :=
  if_pos le

theorem subUInt_one_eq_zero {duration : Nat} :
    subUInt duration 1 = 0 ↔ duration = 1 := by
  unfold subUInt
  split
  · omega
  · omega

theorem asInt_eq_one {value : Nat} (small : value < 2 ^ 32) :
    asInt value = 1 ↔ value = 1 := by
  unfold asInt
  split
  · omega
  · omega

theorem two_le_asInt {value : Nat} (small : value < 2 ^ 32) :
    2 ≤ asInt value ↔ 2 ≤ value ∧ value < 2 ^ 31 := by
  unfold asInt
  split
  · omega
  · omega

end OsPAs.Lib
