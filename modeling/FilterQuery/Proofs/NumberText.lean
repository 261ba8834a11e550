import FilterQuery.Proofs.Numerals
import Mathlib.Data.List.TakeWhile

/-!
What the text of a number tells. The units of a decimal are the digits of its text and its scale is
how many of them come after the point, so different decimals are spelled differently. A decimal that
was read from a text with a point is not spelled like an integer either: it keeps a digit after the
point, or rounding has left it with more units than an integer of 64 bits can have.
-/
namespace FilterQuery.Number

/-! ## Magnitudes -/

/-- The number that the digits of a text denote. -/
def unitsOf (text : List Char) : Nat := valueOf (text.filter (· != '.'))

/-- How many characters come after the first point. -/
def scaleOf (text : List Char) : Nat := (text.dropWhile (· != '.')).length - 1

theorem point_free {ds : List Char} (hds : ∀ c ∈ ds, c.isDigit = true) :
    ∀ c ∈ ds, (c != '.') = true := by
  intro c hc
  refine bne_iff_ne.mpr ?_
  rintro rfl
  exact absurd (hds '.' hc) (by decide)

theorem unitsOf_digits {ds : List Char} (hds : ∀ c ∈ ds, c.isDigit = true) :
    unitsOf ds = valueOf ds := by
  rw [unitsOf, List.filter_eq_self.mpr (point_free hds)]

theorem scaleOf_digits {ds : List Char} (hds : ∀ c ∈ ds, c.isDigit = true) : scaleOf ds = 0 := by
  have hnone : ds.dropWhile (· != '.') = [] := List.dropWhile_eq_nil_iff.mpr (point_free hds)
  rw [scaleOf, hnone]
  rfl

namespace Magnitude

variable (m : Magnitude)

theorem spell_whole (hm : m.scale = 0) : m.spell = m.padded := if_pos hm

theorem isDigit_of_mem_whole {c : Char} (hc : c ∈ m.whole) : c.isDigit = true :=
  m.isDigit_of_mem_padded (List.mem_of_mem_take hc)

theorem unitsOf_spell : unitsOf m.spell = m.units := by
  have hdigits : ∀ c ∈ m.padded, c.isDigit = true := fun c => m.isDigit_of_mem_padded
  by_cases hm : m.scale = 0
  · rw [m.spell_whole hm, unitsOf_digits hdigits, m.valueOf_padded]
  · have hfilter : m.spell.filter (· != '.') = m.padded.filter (· != '.') := by
      rw [m.spell_eq (Nat.pos_of_ne_zero hm), ← m.whole_append_fraction, List.filter_append,
        List.filter_append]
      rfl
    rw [unitsOf, hfilter, ← unitsOf, unitsOf_digits hdigits, m.valueOf_padded]

theorem scaleOf_spell : scaleOf m.spell = m.scale := by
  by_cases hm : m.scale = 0
  · rw [m.spell_whole hm, scaleOf_digits fun c => m.isDigit_of_mem_padded, hm]
  · have hdrop : m.spell.dropWhile (· != '.') = '.' :: m.fraction := by
      rw [m.spell_eq (Nat.pos_of_ne_zero hm),
        List.dropWhile_append_of_pos (point_free fun c => m.isDigit_of_mem_whole)]
      rfl
    rw [scaleOf, hdrop, List.length_cons, Nat.add_sub_cancel, m.length_fraction]

theorem spell_injective {m m' : Magnitude} (h : m.spell = m'.spell) : m = m' := by
  have hunits : m.units = m'.units := by rw [← unitsOf_spell, h, unitsOf_spell]
  have hscale : m.scale = m'.scale := by rw [← scaleOf_spell, h, scaleOf_spell]
  obtain ⟨units, scale, _, _⟩ := m
  obtain ⟨units', scale', _, _⟩ := m'
  obtain rfl : units = units' := hunits
  obtain rfl : scale = scale' := hscale
  rfl

theorem mem_spell {c : Char} (hc : c ∈ m.spell) : c.isDigit = true ∨ c = '.' := by
  by_cases hm : m.scale = 0
  · rw [m.spell_whole hm] at hc
    exact Or.inl (m.isDigit_of_mem_padded hc)
  · rw [m.spell_eq (Nat.pos_of_ne_zero hm)] at hc
    rcases List.mem_append.mp hc with hwhole | hrest
    · exact Or.inl (m.isDigit_of_mem_whole hwhole)
    · rcases List.mem_cons.mp hrest with rfl | hfraction
      · exact Or.inr rfl
      · exact Or.inl (m.isDigit_of_mem_padded (List.mem_of_mem_drop hfraction))

theorem spell_ne_nil : m.spell ≠ [] := by
  by_cases hm : m.scale = 0
  · have hlength := m.scale_lt_length_padded
    rw [m.spell_whole hm]
    rintro hnil
    simp [hnil] at hlength
  · simp [m.spell_eq (Nat.pos_of_ne_zero hm)]

theorem dash_not_mem_spell : '-' ∉ m.spell := fun h =>
  (m.mem_spell h).elim (by decide) (by decide)

end Magnitude

/-! ## Numbers with a sign -/

theorem Integer.spell_injective {n n' : Int64} (h : spell n = spell n') : n = n' := by
  have hread := read_spell n
  rw [h, read_spell] at hread
  exact (Except.ok.inj hread).symm

namespace Decimal

theorem negative_iff (d : Decimal) : d.negative = true ↔ '-' ∈ d.spell := by
  unfold spell
  split
  · next hnegative => simp [hnegative]
  · next hnegative => exact iff_of_false hnegative d.toMagnitude.dash_not_mem_spell

theorem spell_injective {d d' : Decimal} (h : d.spell = d'.spell) : d = d' := by
  have hsign : d.negative = d'.negative := by
    rw [Bool.eq_iff_iff, negative_iff, negative_iff, h]
  have hmagnitude : d.toMagnitude = d'.toMagnitude := by
    refine Magnitude.spell_injective ?_
    unfold spell at h
    rw [hsign] at h
    split at h
    · exact (List.cons.inj h).2
    · exact h
  rw [← d.ofMagnitude_self, hsign, hmagnitude, ofMagnitude_self]

end Decimal

/-! ## Decimals and integers -/

/-- An integer of 64 bits cannot be spelled like this magnitude: there is a digit after the point,
or there are too many units. -/
def Magnitude.IsTelling (m : Magnitude) : Prop := 1 ≤ m.scale ∨ Integer.reach < m.units

theorem Magnitude.spell_ne_digits {m : Magnitude} (hm : m.IsTelling) {n : Nat}
    (hn : n ≤ Integer.reach) : m.spell ≠ digits n := by
  intro h
  have hdigits : ∀ c ∈ digits n, c.isDigit = true := fun c => Integer.isDigit_of_mem_digits
  have hscale : m.scale = 0 := by rw [← m.scaleOf_spell, h, scaleOf_digits hdigits]
  have hunits : m.units = n := by
    rw [← m.unitsOf_spell, h, unitsOf_digits hdigits, Integer.valueOf_digits]
  rcases hm with hplace | hbeyond
  · omega
  · omega

theorem Decimal.spell_ne_integer {d : Decimal} (hd : d.IsTelling) (n : Int64) :
    d.spell ≠ Integer.spell n := by
  intro h
  have hlow := n.le_toInt
  have hhigh := n.toInt_lt
  have hreach : Integer.reach = 2 ^ 63 := rfl
  have hdash : '-' ∉ digits n.toInt.natAbs := fun hmem =>
    absurd (Integer.isDigit_of_mem_digits hmem) (by decide)
  have hne : d.toMagnitude.spell ≠ digits n.toInt.natAbs :=
    Magnitude.spell_ne_digits hd (by omega)
  unfold spell Integer.spell at h
  split at h <;> split at h
  · exact hne (List.cons.inj h).2
  · exact hdash (h ▸ List.mem_cons_self ..)
  · exact d.toMagnitude.dash_not_mem_spell (h ▸ List.mem_cons_self ..)
  · exact hne h

/-! ## Reading -/

namespace Magnitude

variable {m r : Magnitude} {started : Bool} {ds fs : List Char} {k : Nat}

theorem isTelling_of_extend?_eq_none (hk : k ≤ 9) (h : m.extend? k = none) : m.IsTelling := by
  have hbound : unitBound = 2 ^ 96 := rfl
  have hreach : Integer.reach = 2 ^ 63 := rfl
  have hplaces : maxScale = 28 := rfl
  have hfull : ¬(10 * m.units + k < unitBound ∧ m.scale < maxScale) := fun hfits => by
    simp [extend?, hfits] at h
  rw [IsTelling]
  omega

theorem one_le_of_extend? (h : m.extend? k = some r) : 1 ≤ r.scale := by
  unfold extend? at h
  split at h
  · obtain rfl := Option.some.inj h
    exact Nat.le_add_left 1 _
  · cases h

/-- Giving up a place leaves a tenth of the units that there can be. -/
theorem roundUp?_telling (hm : m.IsTelling) (h : m.roundUp? = some r) : r.IsTelling := by
  have hbound : unitBound = 2 ^ 96 := rfl
  have hreach : Integer.reach = 2 ^ 63 := rfl
  unfold roundUp? at h
  split at h
  · obtain rfl := Option.some.inj h
    exact hm.imp_right fun hbeyond => hbeyond.trans (Nat.lt_succ_self _)
  · split at h
    · cases h
    · obtain rfl := Option.some.inj h
      refine Or.inr ?_
      dsimp only
      omega

theorem roundBy_telling (hm : m.IsTelling) (h : m.roundBy k = .ok r) : r.IsTelling := by
  unfold roundBy at h
  split at h
  · exact Except.ok.inj h ▸ hm
  · split at h
    · next hround => exact Except.ok.inj h ▸ roundUp?_telling hm hround
    · cases h

theorem endAt_eq (h : m.endAt ds = .ok r) : r = m := by
  induction ds with
  | nil => exact (Except.ok.inj h).symm
  | cons c cs ih =>
    unfold endAt at h
    split at h
    · exact ih h
    · split at h <;> cases h

theorem readFraction_full {c : Char} {cs : List Char} (hc : c.isDigit = true)
    (hfull : m.extend? (digitValue c) = none) : m.readFraction started (c :: cs) =
      (m.roundBy (digitValue c)).bind fun r => r.endAt cs := by
  refine (if_pos hc).trans ?_
  rw [hfull]

theorem readWhole_full {c : Char} {cs : List Char} (hc : c.isDigit = true)
    (hfull : m.shift? (digitValue c) = none) :
    m.readWhole started (c :: cs) = .error .tooManyDigits := by
  refine (if_pos hc).trans ?_
  rw [hfull]

/-- Once a digit was read after the point, the magnitude is telling. -/
theorem readFraction_telling (hfs : ∀ c ∈ fs, c.isDigit = true) (hplace : 1 ≤ m.scale ∨ fs ≠ [])
    (h : m.readFraction started fs = .ok r) : r.IsTelling := by
  induction fs generalizing m started with
  | nil =>
    cases started with
    | false => cases h
    | true =>
      obtain rfl : m = r := Except.ok.inj h
      exact Or.inl (hplace.resolve_right (absurd rfl))
  | cons c cs ih =>
    obtain ⟨hc, hcs⟩ := List.forall_mem_cons.mp hfs
    cases hnext : m.extend? (digitValue c) with
    | some next =>
      rw [readFraction_digit hc hnext] at h
      exact ih hcs (Or.inl (one_le_of_extend? hnext)) h
    | none =>
      have hm := isTelling_of_extend?_eq_none (digitValue_le_nine hc) hnext
      rw [readFraction_full hc hnext] at h
      cases hround : m.roundBy (digitValue c) with
      | error e =>
        rw [hround] at h
        cases h
      | ok m' =>
        rw [hround] at h
        exact endAt_eq h ▸ roundBy_telling hm hround

theorem readWhole_telling (hds : ∀ c ∈ ds, c.isDigit = true) (hfs : ∀ c ∈ fs, c.isDigit = true)
    (hne : fs ≠ []) (h : m.readWhole started (ds ++ '.' :: fs) = .ok r) : r.IsTelling := by
  induction ds generalizing m started with
  | nil => exact readFraction_telling hfs (Or.inr hne) h
  | cons c cs ih =>
    obtain ⟨hc, hcs⟩ := List.forall_mem_cons.mp hds
    cases hnext : m.shift? (digitValue c) with
    | some next =>
      rw [List.cons_append, readWhole_digit hc hnext] at h
      exact ih hcs h
    | none =>
      rw [List.cons_append, readWhole_full hc hnext] at h
      cases h

end Magnitude

theorem Decimal.readWhole_of_read {sign ds rest : List Char} {d : Decimal}
    (hsign : sign = [] ∨ sign = ['-']) (hne : ds ≠ []) (hds : ∀ c ∈ ds, c.isDigit = true)
    (h : read (sign ++ (ds ++ rest)) = .ok d) :
    ∃ m, Magnitude.zero.readWhole false (ds ++ rest) = .ok m ∧ d.toMagnitude = m := by
  have hmap : ∀ negative, (Magnitude.zero.readWhole false (ds ++ rest)).map
      (ofMagnitude negative) = .ok d →
        ∃ m, Magnitude.zero.readWhole false (ds ++ rest) = .ok m ∧ d.toMagnitude = m := by
    intro negative hread
    cases hwhole : Magnitude.zero.readWhole false (ds ++ rest) with
    | error e =>
      rw [hwhole] at hread
      cases hread
    | ok m =>
      rw [hwhole] at hread
      obtain rfl : ofMagnitude negative m = d := Except.ok.inj hread
      exact ⟨m, rfl, rfl⟩
  rcases hsign with rfl | rfl
  · obtain ⟨c, cs, rfl⟩ := List.exists_cons_of_ne_nil hne
    have hc : c.isDigit = true := hds c (List.mem_cons_self ..)
    exact hmap false ((read_unsigned hc).symm.trans h)
  · exact hmap true h

/-- A decimal that has been read from digits around a point, perhaps with a minus sign before. -/
theorem Decimal.read_telling {sign ds fs : List Char} {d : Decimal}
    (hsign : sign = [] ∨ sign = ['-']) (hne : ds ≠ []) (hds : ∀ c ∈ ds, c.isDigit = true)
    (hne' : fs ≠ []) (hfs : ∀ c ∈ fs, c.isDigit = true)
    (h : read (sign ++ (ds ++ '.' :: fs)) = .ok d) : d.IsTelling := by
  obtain ⟨m, hwhole, hm⟩ := readWhole_of_read hsign hne hds h
  have htelling := Magnitude.readWhole_telling hds hfs hne' hwhole
  rwa [← hm] at htelling

end FilterQuery.Number
