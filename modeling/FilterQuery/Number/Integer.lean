import FilterQuery.Number.Digit

/-!
Integer literals of 64 bits. Reading goes from the left and stops at the first fault, so a bad
digit after the value has left its range is never seen.
-/
namespace FilterQuery.Number

inductive IntegerFault where
  | empty
  | badDigit
  | tooLarge
  | tooSmall
deriving DecidableEq, Repr

namespace IntegerFault

def reason : IntegerFault → String
  | empty => "cannot parse integer from empty string"
  | badDigit => "invalid digit found in string"
  | tooLarge => "number too large to fit in target type"
  | tooSmall => "number too small to fit in target type"

end IntegerFault

namespace Integer

/-- How far below zero a value may lie, 2^63; above zero it is one less. -/
abbrev reach : Nat := 0x8000000000000000

/-- Appends digits to `n` as long as the value stays at most `bound`. -/
def readDigits (bound : Nat) (beyond : IntegerFault) (n : Nat) :
    List Char → Except IntegerFault Nat
  | [] => .ok n
  | c :: cs =>
    if c.isDigit then
      if 10 * n + digitValue c ≤ bound then readDigits bound beyond (10 * n + digitValue c) cs
      else .error beyond
    else .error .badDigit

/-- What follows a sign; a sign needs at least one digit. -/
def readUnsigned (bound : Nat) (beyond : IntegerFault) : List Char → Except IntegerFault Nat
  | [] => .error .badDigit
  | cs => readDigits bound beyond 0 cs

def read : List Char → Except IntegerFault Int64
  | [] => .error .empty
  | '-' :: cs => (readUnsigned reach .tooSmall cs).map fun n => Int64.ofInt (-n)
  | '+' :: cs => (readUnsigned (reach - 1) .tooLarge cs).map fun n => Int64.ofInt n
  | cs => (readUnsigned (reach - 1) .tooLarge cs).map fun n => Int64.ofInt n

def spell (n : Int64) : List Char :=
  if n.toInt < 0 then '-' :: digits n.toInt.natAbs else digits n.toInt.natAbs

end Integer

end FilterQuery.Number
