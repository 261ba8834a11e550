import FilterQuery.Value
import Mathlib.Data.Nat.Init
import Mathlib.Tactic.IntervalCases

/-!
Number literals by value. Reading the digits of an integer gives the number that they denote, or
the fault that its range asks for. What is spelled out canonically is read back: integers, and
decimals with at least one digit after the point, scale included.
-/
namespace FilterQuery.Number

/-- The number that decimal digits denote. -/
abbrev valueOf (ds : List Char) : Nat := Nat.ofDigitChars 10 ds 0

theorem le_ofDigitChars (ds : List Char) (n : Nat) : n ≤ Nat.ofDigitChars 10 ds n := by
  rw [Nat.ofDigitChars_eq_ofDigitChars_zero]
  have hpow : 1 ≤ 10 ^ ds.length := Nat.one_le_pow _ _ (by decide)
  have hmul : 1 * n ≤ 10 ^ ds.length * n := Nat.mul_le_mul_right n hpow
  omega

theorem ofDigitChars_cons (c : Char) (cs : List Char) (n : Nat) :
    Nat.ofDigitChars 10 (c :: cs) n = Nat.ofDigitChars 10 cs (10 * n + digitValue c) :=
  Nat.ofDigitChars_cons

/-- Digits that can stand before a point: a zero alone, or no zero first. -/
def StartsWhole (ds : List Char) : Prop :=
  ds = ['0'] ∨ ∃ c cs, ds = c :: cs ∧ c.isDigit = true ∧ c ≠ '0'

/-! ## Integers -/

namespace Integer

variable {ds : List Char}

theorem readDigits_eq {bound n : Nat} (beyond : IntegerFault) (hn : n ≤ bound)
    (hds : ∀ c ∈ ds, c.isDigit = true) :
    readDigits bound beyond n ds =
      if Nat.ofDigitChars 10 ds n ≤ bound then .ok (Nat.ofDigitChars 10 ds n)
      else .error beyond := by
  induction ds generalizing n with
  | nil => simp [readDigits, hn]
  | cons c cs ih =>
    have hc : c.isDigit = true := hds c (List.mem_cons_self ..)
    simp only [readDigits, hc, if_true, ofDigitChars_cons]
    split
    · next hle => exact ih hle fun d hd => hds d (List.mem_cons_of_mem c hd)
    · next hgt =>
      have hle := le_ofDigitChars cs (10 * n + digitValue c)
      rw [if_neg (by omega)]

theorem readUnsigned_eq {bound : Nat} (beyond : IntegerFault) (hne : ds ≠ [])
    (hds : ∀ c ∈ ds, c.isDigit = true) :
    readUnsigned bound beyond ds =
      if valueOf ds ≤ bound then .ok (valueOf ds) else .error beyond := by
  cases ds with
  | nil => exact absurd rfl hne
  | cons c cs => exact readDigits_eq beyond (Nat.zero_le _) hds

theorem read_negative (hne : ds ≠ []) (hds : ∀ c ∈ ds, c.isDigit = true) :
    read ('-' :: ds) =
      if valueOf ds ≤ reach then .ok (Int64.ofInt (-valueOf ds)) else .error .tooSmall := by
  rw [read, readUnsigned_eq _ hne hds]
  split <;> rfl

theorem read_nonnegative (hne : ds ≠ []) (hds : ∀ c ∈ ds, c.isDigit = true) :
    read ds =
      if valueOf ds ≤ reach - 1 then .ok (Int64.ofInt (valueOf ds)) else .error .tooLarge := by
  cases ds with
  | nil => exact absurd rfl hne
  | cons c cs =>
    have hc : c.isDigit = true := hds c (List.mem_cons_self ..)
    have hread : read (c :: cs) =
        (readUnsigned (reach - 1) .tooLarge (c :: cs)).map fun n => Int64.ofInt n := by
      unfold read
      split <;> simp_all
    rw [hread, readUnsigned_eq _ hne hds]
    split <;> rfl

theorem digits_ne_nil (n : Nat) : digits n ≠ [] := Nat.toDigits_ne_nil

theorem isDigit_of_mem_digits {n : Nat} {c : Char} (hc : c ∈ digits n) : c.isDigit = true :=
  Nat.isDigit_of_mem_toDigits (by decide) (by decide) hc

theorem valueOf_digits (n : Nat) : valueOf (digits n) = n := Nat.ofDigitChars_ten_toDigits

theorem digits_cases (n : Nat) : StartsWhole (digits n) := by
  induction n using Nat.strong_induction_on with
  | h n ih =>
    rw [digits, Nat.toDigits_eq_if (by decide)]
    split
    · next hlt =>
      have hall : ∀ k < 10, StartsWhole [Nat.digitChar k] := by
        intro k hk
        interval_cases k <;> simp [StartsWhole, Nat.digitChar]
      exact hall n hlt
    · next hge =>
      rcases ih (n / 10) (by omega) with hzero | ⟨c, cs, hds, hc, hne⟩
      · have hvalue := valueOf_digits (n / 10)
        rw [hzero] at hvalue
        have hsmall : n / 10 = 0 := hvalue.symm
        omega
      · exact Or.inr ⟨c, cs ++ _, by rw [← digits, hds]; rfl, hc, hne⟩

/-- A spelled integer is read back. -/
theorem read_spell (n : Int64) : read (spell n) = .ok n := by
  have hlow := n.le_toInt
  have hhigh := n.toInt_lt
  have hreach : reach = 2 ^ 63 := rfl
  have hdigits : ∀ c ∈ digits n.toInt.natAbs, c.isDigit = true := fun c => isDigit_of_mem_digits
  unfold spell
  split
  · next hneg =>
    rw [read_negative (digits_ne_nil _) hdigits, valueOf_digits, if_pos (by omega)]
    have habs : -(n.toInt.natAbs : Int) = n.toInt := by omega
    rw [habs, Int64.ofInt_toInt]
  · next hpos =>
    rw [read_nonnegative (digits_ne_nil _) hdigits, valueOf_digits, if_pos (by omega)]
    have habs : (n.toInt.natAbs : Int) = n.toInt := by omega
    rw [habs, Int64.ofInt_toInt]

end Integer

/-! ## Decimals -/

namespace Magnitude

variable {ds fs : List Char}

theorem shift?_of_lt {m : Magnitude} {d : Nat} (h : 10 * m.units + d < unitBound) :
    ∃ next, m.shift? d = some next ∧ next.units = 10 * m.units + d ∧ next.scale = m.scale :=
  ⟨_, dif_pos h, rfl, rfl⟩

theorem extend?_of_lt {m : Magnitude} {d : Nat} (h : 10 * m.units + d < unitBound)
    (hscale : m.scale < maxScale) :
    ∃ next, m.extend? d = some next ∧ next.units = 10 * m.units + d ∧
      next.scale = m.scale + 1 :=
  ⟨_, dif_pos ⟨h, hscale⟩, rfl, rfl⟩

theorem readWhole_digit {m next : Magnitude} {started : Bool} {c : Char} {cs : List Char}
    (hc : c.isDigit = true) (hnext : m.shift? (digitValue c) = some next) :
    m.readWhole started (c :: cs) = next.readWhole true cs := by
  refine (if_pos hc).trans ?_
  rw [hnext]

theorem readFraction_digit {m next : Magnitude} {started : Bool} {c : Char} {cs : List Char}
    (hc : c.isDigit = true) (hnext : m.extend? (digitValue c) = some next) :
    m.readFraction started (c :: cs) = next.readFraction true cs := by
  refine (if_pos hc).trans ?_
  rw [hnext]

theorem readFraction_digits {m : Magnitude} (started : Bool) (hstarted : started = true ∨ fs ≠ [])
    (hfs : ∀ c ∈ fs, c.isDigit = true) (hunits : Nat.ofDigitChars 10 fs m.units < unitBound)
    (hscale : m.scale + fs.length ≤ maxScale) :
    ∃ m' : Magnitude, m.readFraction started fs = .ok m' ∧
      m'.units = Nat.ofDigitChars 10 fs m.units ∧ m'.scale = m.scale + fs.length := by
  induction fs generalizing m started with
  | nil =>
    obtain rfl : started = true := by simpa using hstarted
    exact ⟨m, rfl, rfl, rfl⟩
  | cons c cs ih =>
    have hc : c.isDigit = true := hfs c (List.mem_cons_self ..)
    have hcs : ∀ d ∈ cs, d.isDigit = true := fun d hd => hfs d (List.mem_cons_of_mem c hd)
    rw [ofDigitChars_cons] at hunits
    rw [List.length_cons] at hscale
    obtain ⟨next, hnext, hnextUnits, hnextScale⟩ := extend?_of_lt (m := m)
      (Nat.lt_of_le_of_lt (le_ofDigitChars cs _) hunits) (by omega)
    rw [← hnextUnits] at hunits
    obtain ⟨m', hread, hunits', hscale'⟩ := ih (m := next) true (Or.inl rfl) hcs hunits (by omega)
    refine ⟨m', ?_, ?_, ?_⟩
    · rw [readFraction_digit hc hnext, hread]
    · rw [hunits', ofDigitChars_cons, hnextUnits]
    · rw [hscale', hnextScale, List.length_cons]
      omega

theorem readWhole_digits {m : Magnitude} (started : Bool) (hm : m.scale = 0)
    (hds : ∀ c ∈ ds, c.isDigit = true) (hfs : ∀ c ∈ fs, c.isDigit = true) (hne : fs ≠ [])
    (hunits : Nat.ofDigitChars 10 (ds ++ fs) m.units < unitBound)
    (hscale : fs.length ≤ maxScale) :
    ∃ m' : Magnitude, m.readWhole started (ds ++ '.' :: fs) = .ok m' ∧
      m'.units = Nat.ofDigitChars 10 (ds ++ fs) m.units ∧ m'.scale = fs.length := by
  induction ds generalizing m started with
  | nil =>
    obtain ⟨m', hread, hunits', hscale'⟩ := readFraction_digits started
      (Or.inr hne) hfs hunits (by omega)
    have hpoint : m.readWhole started ('.' :: fs) = m.readFraction started fs := (rfl)
    exact ⟨m', hpoint.trans hread, hunits', by omega⟩
  | cons c cs ih =>
    have hc : c.isDigit = true := hds c (List.mem_cons_self ..)
    have hcs : ∀ d ∈ cs, d.isDigit = true := fun d hd => hds d (List.mem_cons_of_mem c hd)
    rw [List.cons_append, ofDigitChars_cons] at hunits
    obtain ⟨next, hnext, hnextUnits, hnextScale⟩ := shift?_of_lt (m := m)
      (Nat.lt_of_le_of_lt (le_ofDigitChars (cs ++ fs) _) hunits)
    rw [← hnextUnits] at hunits
    obtain ⟨m', hread, hunits', hscale'⟩ := ih (m := next) true (hnextScale.trans hm) hcs hunits
    refine ⟨m', ?_, ?_, hscale'⟩
    · rw [List.cons_append, readWhole_digit hc hnext, hread]
    · rw [hunits', List.cons_append, ofDigitChars_cons, hnextUnits]

/-- The digits of a magnitude, with zeros before them so that one is left of the point. -/
def padded (m : Magnitude) : List Char :=
  List.replicate (m.scale + 1 - (digits m.units).length) '0' ++ digits m.units

def whole (m : Magnitude) : List Char := m.padded.take (m.padded.length - m.scale)

def fraction (m : Magnitude) : List Char := m.padded.drop (m.padded.length - m.scale)

variable (m : Magnitude)

theorem spell_eq (hm : 1 ≤ m.scale) : m.spell = m.whole ++ '.' :: m.fraction := by
  have hne : m.scale ≠ 0 := by omega
  simp [spell, hne, whole, fraction, padded]

theorem whole_append_fraction : m.whole ++ m.fraction = m.padded := List.take_append_drop _ _

theorem scale_lt_length_padded : m.scale < m.padded.length := by
  simp only [padded, List.length_append, List.length_replicate]
  omega

theorem length_fraction : m.fraction.length = m.scale := by
  have hlength := m.scale_lt_length_padded
  simp only [fraction, List.length_drop]
  omega

theorem isDigit_of_mem_padded {c : Char} (hc : c ∈ m.padded) : c.isDigit = true := by
  rcases List.mem_append.mp hc with hzero | hdigit
  · simp [List.eq_of_mem_replicate hzero]
  · exact Integer.isDigit_of_mem_digits hdigit

theorem valueOf_padded : valueOf m.padded = m.units := by
  rw [padded, valueOf, Nat.ofDigitChars_append, Nat.ofDigitChars_replicate_zero, Nat.mul_zero]
  exact Integer.valueOf_digits m.units

/-- A zero before the point stands alone. -/
theorem whole_cases : StartsWhole m.whole := by
  have hlength : m.padded.length - m.scale = m.padded.length - m.scale - 1 + 1 := by
    have hlt := m.scale_lt_length_padded
    omega
  by_cases hshort : (digits m.units).length ≤ m.scale
  · have hone : m.padded.length - m.scale = 1 := by
      simp only [padded, List.length_append, List.length_replicate]
      omega
    have hzeros : m.scale + 1 - (digits m.units).length =
        m.scale - (digits m.units).length + 1 := by omega
    left
    rw [whole, hone, padded, hzeros, List.replicate_succ]
    rfl
  · have hnone : m.scale + 1 - (digits m.units).length = 0 := by omega
    have hpadded : m.padded = digits m.units := by rw [padded, hnone]; rfl
    rw [whole, hlength, hpadded]
    rcases Integer.digits_cases m.units with hzero | ⟨c, cs, hds, hc, hne⟩
    · left
      rw [hzero, List.take_succ_cons, List.take_nil]
    · right
      exact ⟨c, _, by rw [hds, List.take_succ_cons], hc, hne⟩

theorem spell_head (hm : 1 ≤ m.scale) : ∃ c cs, m.spell = c :: cs ∧ c.isDigit = true := by
  rw [spell_eq m hm]
  rcases m.whole_cases with hzero | ⟨c, cs, hwhole, hc, -⟩
  · exact ⟨'0', '.' :: m.fraction, by rw [hzero]; rfl, rfl⟩
  · exact ⟨c, cs ++ '.' :: m.fraction, by rw [hwhole]; rfl, hc⟩

theorem readWhole_spell (hm : 1 ≤ m.scale) : Magnitude.zero.readWhole false m.spell = .ok m := by
  have hdigits : ∀ c ∈ m.whole ++ m.fraction, c.isDigit = true := fun c hc =>
    m.isDigit_of_mem_padded (m.whole_append_fraction ▸ hc)
  have hvalue : Nat.ofDigitChars 10 (m.whole ++ m.fraction) Magnitude.zero.units = m.units := by
    rw [whole_append_fraction]
    exact m.valueOf_padded
  have hne : m.fraction ≠ [] := by
    intro hnil
    have hlength := m.length_fraction
    simp only [hnil, List.length_nil] at hlength
    omega
  obtain ⟨m', hread, hunits, hscale⟩ := readWhole_digits false
    (m := Magnitude.zero) rfl (fun c hc => hdigits c (List.mem_append_left _ hc))
    (fun c hc => hdigits c (List.mem_append_right _ hc)) hne (hvalue ▸ m.units_lt)
    (m.length_fraction ▸ m.scale_le)
  rw [spell_eq m hm, hread]
  obtain ⟨units, scale, _, _⟩ := m'
  obtain rfl : units = m.units := hunits.trans hvalue
  obtain rfl : scale = m.scale := hscale.trans m.length_fraction
  rfl

end Magnitude

namespace Decimal

theorem ofMagnitude_self (d : Decimal) : ofMagnitude d.negative d.toMagnitude = d := by
  obtain ⟨m, negative, hnonzero⟩ := d
  cases negative with
  | false => rfl
  | true =>
    have hunits := hnonzero rfl
    simp [ofMagnitude, hunits]

theorem read_unsigned {c : Char} {cs : List Char} (hc : c.isDigit = true) :
    read (c :: cs) = (Magnitude.zero.readWhole false (c :: cs)).map (ofMagnitude false) := by
  unfold read
  split <;> simp_all

/-- A spelled decimal is read back, with its scale. -/
theorem read_spell (d : Decimal) (hd : 1 ≤ d.scale) : read d.spell = .ok d := by
  have hread := d.toMagnitude.readWhole_spell hd
  have hself := d.ofMagnitude_self
  unfold spell
  split
  · next hnegative =>
    rw [read, hread, Except.map, ← hnegative, hself]
  · next hpositive =>
    have hnegative : d.negative = false := by simpa using hpositive
    have hplain : read d.toMagnitude.spell =
        (Magnitude.zero.readWhole false d.toMagnitude.spell).map (ofMagnitude false) := by
      obtain ⟨c, cs, hspell, hc⟩ := d.toMagnitude.spell_head hd
      rw [hspell, read_unsigned hc]
    rw [hplain, hread, Except.map, ← hnegative, hself]

end Decimal

end FilterQuery.Number
