/-!
Decimal digits: the value of a digit character, the powers of ten, and the digits of a natural
number with the most significant first.
-/
namespace FilterQuery.Number

def digitValue (c : Char) : Nat := c.toNat - '0'.toNat

def powerOfTen : Nat → Nat
  | 0 => 1
  | n + 1 => 10 * powerOfTen n

def digits (n : Nat) : List Char := Nat.toDigits 10 n

theorem digitValue_le_nine {c : Char} (h : c.isDigit = true) : digitValue c ≤ 9 := by
  have hc : c.toNat ≤ 57 := by
    simp only [Char.isDigit, Bool.and_eq_true, decide_eq_true_eq, UInt32.le_iff_toNat_le] at h
    exact h.2
  have hzero : '0'.toNat = 48 := by decide
  simp only [digitValue, hzero]
  omega

end FilterQuery.Number
