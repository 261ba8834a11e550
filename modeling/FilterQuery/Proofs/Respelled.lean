import FilterQuery.Proofs.Faults
import FilterQuery.Proofs.NumberText
import FilterQuery.Proofs.Tokens

/-!
Decimal literals that are spelled out again. A decimal with a digit after the point is spelled as a
literal that is read back as the same decimal; one without is spelled like an integer. Which of the
two a literal gives depends on its absolute value alone: from 7922816251426433759354395033.55 on
there are no units for a place after the point, and rounding leaves no digit there.
-/
namespace FilterQuery

open Grammar Scanner Result

namespace Number

variable {ds fs : List Char}

/-! ## Values of digits -/

theorem ofDigitChars_lt (hds : ∀ c ∈ ds, c.isDigit = true) (n : Nat) :
    Nat.ofDigitChars 10 ds n < (n + 1) * 10 ^ ds.length := by
  induction ds generalizing n with
  | nil => simp
  | cons c cs ih =>
    obtain ⟨hc, hcs⟩ := List.forall_mem_cons.mp hds
    have hdigit := digitValue_le_nine hc
    rw [ofDigitChars_cons, List.length_cons, Nat.pow_succ']
    calc Nat.ofDigitChars 10 cs (10 * n + digitValue c)
        < (10 * n + digitValue c + 1) * 10 ^ cs.length := ih hcs _
      _ ≤ ((n + 1) * 10) * 10 ^ cs.length := Nat.mul_le_mul_right _ (by omega)
      _ = (n + 1) * (10 * 10 ^ cs.length) := Nat.mul_assoc ..

/-- More digits do not decide a comparison with a number of as many places. -/
theorem ofDigitChars_lt_iff (hds : ∀ c ∈ ds, c.isDigit = true) (n bound : Nat) :
    Nat.ofDigitChars 10 ds n < bound * 10 ^ ds.length ↔ n < bound := by
  constructor
  · intro h
    rw [Nat.ofDigitChars_eq_ofDigitChars_zero, Nat.mul_comm] at h
    exact Nat.lt_of_mul_lt_mul_right (Nat.lt_of_le_of_lt (Nat.le_add_right ..) h)
  · intro h
    exact Nat.lt_of_lt_of_le (ofDigitChars_lt hds n) (Nat.mul_le_mul_right _ h)

/-! ## The places that rounding leaves -/

/-- In hundredths, the least absolute value of which rounding leaves no digit after the point. -/
def pointBound : Nat := 10 * unitBound - 5

namespace Magnitude

variable {m r : Magnitude} {started : Bool} {k : Nat}

/-- Rounding gives up a place only where one unit more would reach the bound. -/
theorem scale_of_roundBy (h : m.roundBy k = .ok r) :
    r.scale = if k < 5 ∨ m.units + 1 < unitBound then m.scale else m.scale - 1 := by
  unfold roundBy at h
  split at h
  · next hdown =>
    rw [if_pos (Or.inl hdown), ← Except.ok.inj h]
  · next hup =>
    split at h
    · next next hnext =>
      obtain rfl := Except.ok.inj h
      unfold roundUp? at hnext
      split at hnext
      · next hfits =>
        rw [if_pos (Or.inr hfits), ← Option.some.inj hnext]
      · next hfull =>
        rw [if_neg (not_or.mpr ⟨hup, hfull⟩)]
        split at hnext
        · cases hnext
        · rw [← Option.some.inj hnext]
    · cases h

theorem scale_of_extend? (h : m.extend? k = some r) :
    r.units = 10 * m.units + k ∧ r.scale = m.scale + 1 := by
  unfold extend? at h
  split at h
  · obtain rfl := Option.some.inj h
    exact ⟨rfl, rfl⟩
  · cases h

/-- Where no digit can be taken any more, the next one settles the rounding. -/
theorem roundBy_of_full {c : Char} {cs : List Char} (hc : c.isDigit = true)
    (hfull : m.extend? (digitValue c) = none)
    (h : m.readFraction started (c :: cs) = .ok r) : m.roundBy (digitValue c) = .ok r := by
  rw [readFraction_full hc hfull] at h
  cases hround : m.roundBy (digitValue c) with
  | error e =>
    rw [hround] at h
    cases h
  | ok m' =>
    rw [hround] at h
    rw [endAt_eq h]

/-- With two places one is left in any case. -/
theorem one_le_scale_of_two_le (hm : 2 ≤ m.scale) (hfs : ∀ c ∈ fs, c.isDigit = true)
    (h : m.readFraction started fs = .ok r) : 1 ≤ r.scale := by
  induction fs generalizing m started with
  | nil =>
    cases started with
    | false => cases h
    | true =>
      obtain rfl : m = r := Except.ok.inj h
      omega
  | cons c cs ih =>
    obtain ⟨hc, hcs⟩ := List.forall_mem_cons.mp hfs
    cases hnext : m.extend? (digitValue c) with
    | some next =>
      have hscale := (scale_of_extend? hnext).2
      rw [readFraction_digit hc hnext] at h
      exact ih (by omega) hcs h
    | none =>
      have hscale := scale_of_roundBy (roundBy_of_full hc hnext h)
      split at hscale <;> omega

/-- With one place it depends on the next digit, and only if there are no units left. -/
theorem one_le_scale_iff_of_one (hm : m.scale = 1) (hfs : ∀ c ∈ fs, c.isDigit = true)
    (h : m.readFraction true fs = .ok r) :
    1 ≤ r.scale ↔ 10 * Nat.ofDigitChars 10 fs m.units < pointBound * 10 ^ fs.length := by
  have hunits := m.units_lt
  have hbound : unitBound = 79228162514264337593543950336 := rfl
  have hpoint : pointBound = 792281625142643375935439503355 := rfl
  cases fs with
  | nil =>
    obtain rfl : m = r := Except.ok.inj h
    simp only [Nat.ofDigitChars_nil, List.length_nil, Nat.pow_zero, Nat.mul_one]
    omega
  | cons c cs =>
    obtain ⟨hc, hcs⟩ := List.forall_mem_cons.mp hfs
    have hvalue : 10 * Nat.ofDigitChars 10 (c :: cs) m.units <
        pointBound * 10 ^ (c :: cs).length ↔ 10 * m.units + digitValue c < pointBound := by
      rw [← ofDigitChars_lt_iff hcs (10 * m.units + digitValue c), ofDigitChars_cons,
        List.length_cons, Nat.pow_succ, ← Nat.mul_assoc]
      omega
    have hdigit := digitValue_le_nine hc
    rw [hvalue]
    cases hnext : m.extend? (digitValue c) with
    | some next =>
      obtain ⟨hnextUnits, hnextScale⟩ := scale_of_extend? hnext
      have hfits := next.units_lt
      rw [readFraction_digit hc hnext] at h
      have hone := one_le_scale_of_two_le (by omega) hcs h
      exact iff_of_true hone (by omega)
    | none =>
      have hscale := scale_of_roundBy (roundBy_of_full hc hnext h)
      split at hscale <;> omega

theorem one_le_scale_iff_of_zero (hm : m.scale = 0) (hfs : ∀ c ∈ fs, c.isDigit = true)
    (hne : fs ≠ []) (h : m.readFraction started fs = .ok r) :
    1 ≤ r.scale ↔ 100 * Nat.ofDigitChars 10 fs m.units < pointBound * 10 ^ fs.length := by
  have hbound : unitBound = 79228162514264337593543950336 := rfl
  have hpoint : pointBound = 792281625142643375935439503355 := rfl
  have hplaces : maxScale = 28 := rfl
  obtain ⟨c, cs, rfl⟩ := List.exists_cons_of_ne_nil hne
  obtain ⟨hc, hcs⟩ := List.forall_mem_cons.mp hfs
  have hvalue : 100 * Nat.ofDigitChars 10 (c :: cs) m.units <
      pointBound * 10 ^ (c :: cs).length ↔
        10 * Nat.ofDigitChars 10 cs (10 * m.units + digitValue c) <
          pointBound * 10 ^ cs.length := by
    rw [ofDigitChars_cons, List.length_cons, Nat.pow_succ, ← Nat.mul_assoc]
    omega
  rw [hvalue]
  cases hnext : m.extend? (digitValue c) with
  | some next =>
    obtain ⟨hnextUnits, hnextScale⟩ := scale_of_extend? hnext
    rw [readFraction_digit hc hnext] at h
    rw [← hnextUnits]
    exact one_le_scale_iff_of_one (by omega) hcs h
  | none =>
    have hfull : ¬(10 * m.units + digitValue c < unitBound ∧ m.scale < maxScale) := fun hfits => by
      simp [extend?, hfits] at hnext
    have hbeyond : unitBound ≤ 10 * m.units + digitValue c := by omega
    have hlarge : unitBound * 10 ^ cs.length ≤
        Nat.ofDigitChars 10 cs (10 * m.units + digitValue c) := by
      by_contra hlt
      have hsmall := (ofDigitChars_lt_iff hcs _ _).mp (Nat.lt_of_not_le hlt)
      omega
    have hscale := scale_of_roundBy (roundBy_of_full hc hnext h)
    refine iff_of_false (by split at hscale <;> omega) ?_
    rw [hpoint]
    rw [hbound] at hlarge
    omega

/-- The digits before the point are all taken. -/
theorem readFraction_of_readWhole (hds : ∀ c ∈ ds, c.isDigit = true)
    (h : m.readWhole started (ds ++ '.' :: fs) = .ok r) :
    ∃ (m' : Magnitude) (started' : Bool), m'.units = Nat.ofDigitChars 10 ds m.units ∧
      m'.scale = m.scale ∧ m'.readFraction started' fs = .ok r := by
  induction ds generalizing m started with
  | nil => exact ⟨m, started, rfl, rfl, h⟩
  | cons c cs ih =>
    obtain ⟨hc, hcs⟩ := List.forall_mem_cons.mp hds
    cases hnext : m.shift? (digitValue c) with
    | none =>
      rw [List.cons_append, readWhole_full hc hnext] at h
      cases h
    | some next =>
      rw [List.cons_append, readWhole_digit hc hnext] at h
      obtain ⟨m', started', hunits, hscale, hread⟩ := ih hcs h
      unfold shift? at hnext
      split at hnext
      · obtain rfl := Option.some.inj hnext
        exact ⟨m', started', hunits.trans (ofDigitChars_cons ..).symm, hscale, hread⟩
      · cases hnext

end Magnitude

theorem Decimal.one_le_scale_iff {sign : List Char} {d : Decimal} (hsign : sign = [] ∨ sign = ['-'])
    (hne : ds ≠ []) (hds : ∀ c ∈ ds, c.isDigit = true) (hne' : fs ≠ [])
    (hfs : ∀ c ∈ fs, c.isDigit = true) (h : read (sign ++ (ds ++ '.' :: fs)) = .ok d) :
    1 ≤ d.scale ↔ 100 * valueOf (ds ++ fs) < pointBound * 10 ^ fs.length := by
  obtain ⟨m, hread, rfl⟩ := readWhole_of_read hsign hne hds h
  obtain ⟨m', started, hunits, hscale, hfraction⟩ := Magnitude.readFraction_of_readWhole hds hread
  have hiff := Magnitude.one_le_scale_iff_of_zero (hscale.trans rfl) hfs hne' hfraction
  rw [hunits, ← Nat.ofDigitChars_append] at hiff
  exact hiff

/-! ## The spelling as a literal -/

theorem endsToken_nil : EndsToken [] := by
  rintro c ⟨⟩

theorem number_of_reads {text : List Char} {l : Literal}
    (h : Reads .unlimited Peg.number text (matched l [])) :
    ∃ a, Terminal.number text = .found a text [] ∧ numeralLiteral a = l := by
  obtain ⟨a, lexeme, hfound, ha, hlexeme⟩ := number_obeys.found_of_reads h
  rw [List.append_nil] at hlexeme
  exact ⟨a, hlexeme ▸ hfound, ha⟩

namespace Decimal

variable (d : Decimal)

theorem number_spell (hd : 1 ≤ d.scale) :
    Terminal.number d.spell = .found (.decimal d.spell) d.spell [] := by
  obtain ⟨sign, ds, fs, hspell, hwhole, hfs, hne⟩ := isWhole_decimal d hd
  have hread : Reads .unlimited _ _ _ := hwhole.reads_decimal hfs hne endsToken_nil
  rw [List.append_nil, ← hspell] at hread
  obtain ⟨a, hfound, ha⟩ := number_of_reads hread
  cases a with
  | integer text => cases ha
  | decimal text =>
    obtain rfl : text = d.spell := String.ofList_injective (Literal.decimal.inj ha)
    exact hfound

/-- Without a digit after the point the spelling is an integer literal. -/
theorem number_spell_whole (hd : d.scale = 0) :
    Terminal.number d.spell = .found (.integer d.spell) d.spell [] := by
  have hall : d.toMagnitude.whole = d.toMagnitude.spell := by
    rw [Magnitude.whole, hd, Nat.sub_zero, List.take_length, d.toMagnitude.spell_whole hd]
  have hstarts : StartsWhole d.toMagnitude.spell := hall ▸ d.toMagnitude.whole_cases
  have hdigits : ∀ c ∈ d.toMagnitude.spell, c.isDigit = true := fun c hc =>
    d.toMagnitude.isDigit_of_mem_whole (hall ▸ hc)
  obtain ⟨sign, hspell, hsign⟩ :
      ∃ sign, d.spell = sign ++ d.toMagnitude.spell ∧ (sign = [] ∨ sign = ['-']) := by
    unfold spell
    split
    · exact ⟨['-'], rfl, Or.inr rfl⟩
    · exact ⟨[], rfl, Or.inl rfl⟩
  have hread : Reads .unlimited _ _ _ :=
    IsWhole.reads_integer ⟨hsign, hstarts, hdigits⟩ endsToken_nil
  rw [List.append_nil, ← hspell] at hread
  obtain ⟨a, hfound, ha⟩ := number_of_reads hread
  cases a with
  | decimal text => cases ha
  | integer text =>
    obtain rfl : text = d.spell := String.ofList_injective (Literal.integer.inj ha)
    exact hfound

end Decimal

end Number

/-! ## Literals that are spelled out again -/

open Number

/-- The text is one decimal literal from end to end, and the decimal is what it adds to a tree. -/
structure IsDecimalLiteral (text : List Char) (d : Decimal) : Prop where
  matched : Terminal.number text = .found (.decimal text) text []
  accepted : ∀ stack, Assembly.addDecimal (String.ofList text) stack =
    .push (.value (.decimal d)) stack

/-- The value of the digits, with the sign of the text dropped, is below the one from which on
rounding leaves none after the point. -/
def IsBelowPointBound (text : List Char) : Prop :=
  100 * valueOf (text.filter Char.isDigit) < pointBound * 10 ^ scaleOf text

/-- The bound in the parts of a literal: a text and its negative are below it together. -/
theorem isBelowPointBound_iff {sign ds fs : List Char} (hsign : sign = [] ∨ sign = ['-'])
    (hds : ∀ c ∈ ds, c.isDigit = true) (hfs : ∀ c ∈ fs, c.isDigit = true) :
    IsBelowPointBound (sign ++ (ds ++ '.' :: fs)) ↔
      100 * valueOf (ds ++ fs) < pointBound * 10 ^ fs.length := by
  have hsignDigits : sign.filter Char.isDigit = [] := by
    rcases hsign with rfl | rfl <;> rfl
  have hsignFree : ∀ c ∈ sign, (c != '.') = true := by
    rcases hsign with rfl | rfl <;> simp
  have hfilter : (sign ++ (ds ++ '.' :: fs)).filter Char.isDigit = ds ++ fs := by
    rw [List.filter_append, List.filter_append, hsignDigits, List.filter_eq_self.mpr hds]
    exact congrArg (ds ++ ·) (List.filter_eq_self.mpr hfs)
  have hscale : scaleOf (sign ++ (ds ++ '.' :: fs)) = fs.length := by
    rw [scaleOf, List.dropWhile_append_of_pos hsignFree,
      List.dropWhile_append_of_pos (point_free hds)]
    rfl
  rw [IsBelowPointBound, hfilter, hscale]

namespace IsDecimalLiteral

variable {text : List Char} {d : Decimal}

theorem read_eq (h : IsDecimalLiteral text d) : Decimal.read text = .ok d := by
  have hadd := h.accepted []
  rw [Assembly.addDecimal, String.toList_ofList] at hadd
  cases hread : Decimal.read text with
  | ok d' =>
    rw [hread] at hadd
    injection hadd with _ _ hpushed
    cases hpushed
    rfl
  | error fault =>
    rw [hread] at hadd
    injection hadd with _ herrors
    cases herrors

theorem of_read (hmatched : Terminal.number text = .found (.decimal text) text [])
    (hread : Decimal.read text = .ok d) : IsDecimalLiteral text d where
  matched := hmatched
  accepted stack := by rw [Assembly.addDecimal, String.toList_ofList, hread]

theorem parts (h : IsDecimalLiteral text d) : (Literal.decimal (String.ofList text)).IsSpelled := by
  have hread : Reads .unlimited Peg.number text _ := number_obeys.found h.matched
  obtain ⟨t, -, hyields⟩ := hread.yields (G := SpelledIn) (fun _ hs => body_carries _ hs) rfl
  exact (Peg.carries_number hyields).spelled _ (List.mem_singleton_self _)

theorem one_le_scale_iff (h : IsDecimalLiteral text d) : 1 ≤ d.scale ↔ IsBelowPointBound text := by
  obtain ⟨sign, ds, fs, htext, hsign, ⟨hne, hds⟩, hne', hfs⟩ := h.parts
  rw [String.toList_ofList] at htext
  subst htext
  rw [isBelowPointBound_iff hsign hds hfs]
  exact Decimal.one_le_scale_iff hsign hne hds hne' hfs h.read_eq

/-- A decimal literal is spelled as one that gives the same decimal, exactly if the value of its
digits is below the bound. The sign has no part in it: the bound is on the absolute value. -/
theorem spell_iff (h : IsDecimalLiteral text d) :
    IsDecimalLiteral (Value.decimal d).spell d ↔ IsBelowPointBound text := by
  rw [← h.one_le_scale_iff]
  constructor
  · intro hspell
    by_contra hd
    have hdecimal : Terminal.number d.spell = _ := hspell.matched
    rw [d.number_spell_whole (by omega)] at hdecimal
    cases hdecimal
  · intro hd
    exact .of_read (d.number_spell hd) (d.read_spell hd)

/-- The last literal that keeps a place: all the digits after it round down to one. -/
theorem spell_iff_last : ∃ (text : List Char) (d : Decimal), IsDecimalLiteral text d ∧
    (IsDecimalLiteral (Value.decimal d).spell d ↔ IsBelowPointBound text) ∧
      (Value.decimal d).spell = "-7922816251426433759354395033.5".toList := by
  have h : IsDecimalLiteral "-7922816251426433759354395033.5499".toList
      (.ofMagnitude true ⟨79228162514264337593543950335, 1, by decide, by decide⟩) :=
    .of_read (by decide) (by rfl)
  exact ⟨_, _, h, h.spell_iff, by decide⟩

/-- The digits before the point leave no room for the one after it. -/
theorem decimal_spelled_whole : ∃ (text : List Char) (d : Decimal), IsDecimalLiteral text d ∧
    ¬ IsDecimalLiteral (Value.decimal d).spell d := by
  refine ⟨"79228162514264337593543950335.4".toList,
    .ofMagnitude false ⟨79228162514264337593543950335, 0, by decide, by decide⟩,
    .of_read (by decide) (by rfl), fun h => ?_⟩
  exact absurd h.matched (by decide)

end IsDecimalLiteral

end FilterQuery
