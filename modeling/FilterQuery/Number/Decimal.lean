import FilterQuery.Number.Digit

/-!
Decimal literals. A decimal holds fewer than 2^96 units at one of the scales 0 to 28, and the
scale belongs to it: `1.50` and `1.5` are different decimals of the same value. Zero has no sign.
Reading keeps every digit that fits and lets the first one that does not decide the rounding.
-/
namespace FilterQuery.Number

/-- The number of different magnitudes at one scale, 2^96. -/
abbrev unitBound : Nat := 0x1000000000000000000000000

abbrev maxScale : Nat := 28

/-- The value `units / 10 ^ scale`. -/
structure Magnitude where
  units : Nat
  scale : Nat
  units_lt : units < unitBound
  scale_le : scale ≤ maxScale
deriving DecidableEq, Repr

structure Decimal extends Magnitude where
  negative : Bool
  nonzero : negative = true → units ≠ 0
deriving DecidableEq, Repr

inductive DecimalFault where
  | empty
  | noDigits
  | leadingSeparator
  | secondPoint
  | unknownCharacter
  | tooManyDigits
  | roundedPastBound
deriving DecidableEq, Repr

namespace DecimalFault

def reason : DecimalFault → String
  | empty => "Invalid decimal: empty"
  | noDigits => "Invalid decimal: no digits found"
  | leadingSeparator => "Invalid decimal: must start lead with a number"
  | secondPoint => "Invalid decimal: two decimal points"
  | unknownCharacter => "Invalid decimal: unknown character"
  | tooManyDigits => "Invalid decimal: overflow from too many digits"
  | roundedPastBound => "Invalid decimal: overflow from mantissa after rounding"

end DecimalFault

namespace Magnitude

def zero : Magnitude := ⟨0, 0, by decide, by decide⟩

/-- One more digit before the point. -/
def shift? (m : Magnitude) (d : Nat) : Option Magnitude :=
  if h : 10 * m.units + d < unitBound then some ⟨10 * m.units + d, m.scale, h, m.scale_le⟩
  else none

/-- One more digit after the point. -/
def extend? (m : Magnitude) (d : Nat) : Option Magnitude :=
  if h : 10 * m.units + d < unitBound ∧ m.scale < maxScale then
    some ⟨10 * m.units + d, m.scale + 1, h.1, h.2⟩
  else none

/-- One unit more. Where that would reach the bound the last place is given up, if there is one,
and what remains is rounded there. -/
def roundUp? (m : Magnitude) : Option Magnitude :=
  if h : m.units + 1 < unitBound then some ⟨m.units + 1, m.scale, h, m.scale_le⟩
  else if m.scale = 0 then none
  else
    some ⟨(m.units + 1 + 4) / 10, m.scale - 1,
      by have := m.units_lt; simp only [unitBound] at *; omega,
      by have := m.scale_le; omega⟩

/-- Rounds by `d`, the first digit that is not kept; a half goes up. -/
def roundBy (m : Magnitude) (d : Nat) : Except DecimalFault Magnitude :=
  if d < 5 then .ok m
  else
    match m.roundUp? with
    | some r => .ok r
    | none => .error .roundedPastBound

/-- Digits beyond the rounding place no longer matter, but they have to be digits. -/
def endAt (m : Magnitude) : List Char → Except DecimalFault Magnitude
  | [] => .ok m
  | c :: cs =>
    if c.isDigit || c = '_' then m.endAt cs
    else if c = '.' then .error .secondPoint
    else .error .unknownCharacter

/-- Reads what follows the point. Separators are passed over, also where the places are filled and
the next digit settles the rounding. -/
def readFraction (m : Magnitude) (started : Bool) : List Char → Except DecimalFault Magnitude
  | [] => if started then .ok m else .error .noDigits
  | c :: cs =>
    if c.isDigit then
      match m.extend? (digitValue c) with
      | some next => next.readFraction true cs
      | none => (m.roundBy (digitValue c)).bind fun r => r.endAt cs
    else if c = '_' then
      if started then m.readFraction started cs else .error .leadingSeparator
    else if c = '.' then .error .secondPoint
    else .error .unknownCharacter

/-- Reads from the first digit on; `started` says that a digit was met. -/
def readWhole (m : Magnitude) (started : Bool) : List Char → Except DecimalFault Magnitude
  | [] => if started then .ok m else .error .noDigits
  | c :: cs =>
    if c.isDigit then
      match m.shift? (digitValue c) with
      | some next => next.readWhole true cs
      | none => .error .tooManyDigits
    else if c = '_' then
      if started then m.readWhole started cs else .error .leadingSeparator
    else if c = '.' then m.readFraction started cs
    else .error .unknownCharacter

/-- Exactly `scale` digits after the point, and at least one before it. -/
def spell (m : Magnitude) : List Char :=
  let ds := digits m.units
  let padded := List.replicate (m.scale + 1 - ds.length) '0' ++ ds
  let whole := padded.length - m.scale
  if m.scale = 0 then padded else padded.take whole ++ '.' :: padded.drop whole

end Magnitude

namespace Decimal

/-- The sign is dropped from zero. -/
def ofMagnitude (negative : Bool) (m : Magnitude) : Decimal where
  toMagnitude := m
  negative := negative && m.units != 0
  nonzero := by simp

def zero : Decimal := ofMagnitude false .zero

def read : List Char → Except DecimalFault Decimal
  | [] => .error .empty
  | '-' :: cs => (Magnitude.zero.readWhole false cs).map (ofMagnitude true)
  | '+' :: cs => (Magnitude.zero.readWhole false cs).map (ofMagnitude false)
  | cs => (Magnitude.zero.readWhole false cs).map (ofMagnitude false)

def spell (d : Decimal) : List Char :=
  if d.negative then '-' :: d.toMagnitude.spell else d.toMagnitude.spell

/-- Equal values, whatever the scales. -/
def agrees (a b : Decimal) : Bool :=
  a.negative == b.negative && a.units * powerOfTen b.scale == b.units * powerOfTen a.scale

end Decimal

end FilterQuery.Number
