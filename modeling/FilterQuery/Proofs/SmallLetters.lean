import FilterQuery.Proofs.Folding

/-!
What lower-casing keeps. Small letters have no small form other than themselves, so lower-casing a
second time changes nothing; spaces stay and no other character becomes one; and of what surrounds
a character only the cased letters matter, whose case does not.
-/
namespace FilterQuery.Text

/-! ## The table of capitals -/

namespace CapitalRun

def lastSmall (r : CapitalRun) : Nat := r.small + (r.last - r.first)

/-- The small forms of the first run are before or after the capitals of the second one, or take
turns with them. -/
def avoids (r r' : CapitalRun) : Bool :=
  r.lastSmall.blt r'.first || r'.last.blt r.small ||
    (r.step == 2 || r.first == r.last) && r'.step == 2 && (r.small + r'.first) % 2 == 1

theorem has_iff {r : CapitalRun} {n : Nat} :
    r.has n = true ↔ (r.first ≤ n ∧ n ≤ r.last) ∧ (n - r.first) % r.step = 0 := by
  simp [has]

theorem not_has_of_avoids {r r' : CapitalRun} (h : r.avoids r' = true) {n : Nat}
    (hn : r.has n = true) : r'.has (r.lower n) = false := by
  simp only [avoids, lastSmall, Bool.or_eq_true, Nat.blt_eq, Bool.and_eq_true, beq_iff_eq] at h
  obtain ⟨⟨hfirst, hlast⟩, hstep⟩ := has_iff.mp hn
  apply Bool.eq_false_iff.mpr
  intro hcapital
  obtain ⟨⟨hfirst', hlast'⟩, hstep'⟩ := has_iff.mp hcapital
  rw [lower] at hfirst' hlast' hstep'
  rcases h with (hbefore | hafter) | ⟨⟨hr, hr'⟩, hodd⟩
  · omega
  · omega
  · rw [hr'] at hstep'
    rcases hr with htwo | hone
    · rw [htwo] at hstep
      omega
    · omega

/-- All that has to be known of the small forms of a run. -/
def isSettled (r : CapitalRun) : Bool :=
  capitals.all r.avoids &&
    whitespace.all (fun range => r.lastSmall.blt range.1 || range.2.blt r.small) &&
    (r.lastSmall.blt 0xd800 || Nat.blt 0xdfff r.small && r.lastSmall.blt 0x110000) &&
    (r.lastSmall.blt 0x130 || Nat.blt 0x130 r.small)

end CapitalRun

theorem capitals_settled : capitals.all CapitalRun.isSettled = true := by decide +kernel

/-- Spaces are no capitals, and they end the search for a cased letter without success. -/
theorem spaces_settled : (whitespace.all fun range =>
    (List.range' range.1 (range.2 + 1 - range.1)).all fun n =>
      (capitals.find? (·.has n)).isNone && !caseIgnorable.holds n && !cased.holds n) = true := by
  decide +kernel

theorem Ranges.exists_of_holds {table : Ranges} {n : Nat} (h : table.holds n = true) :
    ∃ range ∈ table, range.1 ≤ n ∧ n ≤ range.2 := by
  induction table with
  | nil => simp [holds] at h
  | cons range table ih =>
    rw [holds] at h
    split at h
    · cases h
    · next hlo =>
      rcases Bool.or_eq_true_iff.mp h with hhi | hrest
      · exact ⟨range, List.mem_cons_self .., by omega, of_decide_eq_true hhi⟩
      · obtain ⟨other, hmem, hbounds⟩ := ih hrest
        exact ⟨other, List.mem_cons_of_mem _ hmem, hbounds⟩

theorem toNat_ofNat {n : Nat} (h : n.isValidChar) : (Char.ofNat n).toNat = n := by
  rw [Char.ofNat, dif_pos h]
  rfl

/-! ## Characters -/

variable {c d : Char} {n : Nat}

theorem space_settled (h : isSpace c = true) :
    capitals.find? (·.has c.toNat) = none ∧ caseIgnorable.holds c.toNat = false ∧
      cased.holds c.toNat = false := by
  obtain ⟨range, hrange, hlo, hhi⟩ := Ranges.exists_of_holds h
  have hall := List.all_eq_true.mp spaces_settled range hrange
  have hmem : c.toNat ∈ List.range' range.1 (range.2 + 1 - range.1) := by
    rw [List.mem_range'_1]
    omega
  simpa [and_assoc] using List.all_eq_true.mp hall _ hmem

/-- The small form of a capital is a character, no capital itself and no space. -/
theorem capital_settled {run : CapitalRun} (hrun : run ∈ capitals) (hn : run.has n = true) :
    capitals.find? (·.has (run.lower n)) = none ∧ whitespace.holds (run.lower n) = false ∧
      (run.lower n).isValidChar ∧ run.lower n ≠ 0x130 := by
  have hsettled := List.all_eq_true.mp capitals_settled run hrun
  simp only [CapitalRun.isSettled, Bool.and_eq_true, List.all_eq_true, Bool.or_eq_true, Nat.blt_eq]
    at hsettled
  obtain ⟨⟨⟨havoids, hspaces⟩, hvalid⟩, hdotted⟩ := hsettled
  obtain ⟨⟨hfirst, hlast⟩, -⟩ := CapitalRun.has_iff.mp hn
  have hlower : run.lower n ≤ run.lastSmall ∧ run.small ≤ run.lower n := by
    rw [CapitalRun.lower, CapitalRun.lastSmall]
    omega
  refine ⟨?_, ?_, ?_, ?_⟩
  · refine List.find?_eq_none.mpr fun other hother => ?_
    simpa using CapitalRun.not_has_of_avoids (havoids other hother) hn
  · apply Bool.eq_false_iff.mpr
    intro hspace
    obtain ⟨range, hrange, hlo, hhi⟩ := Ranges.exists_of_holds hspace
    have hapart := hspaces range hrange
    omega
  · rw [Nat.isValidChar]
    omega
  · omega

/-- Lower-casing keeps the character, whatever surrounds it. -/
def IsSmall (c : Char) : Prop := lowerChar c = [c] ∧ c ≠ 'Σ'

theorem lowerCode_of_none (h : capitals.find? (·.has n) = none) : lowerCode n = n := by
  rw [lowerCode, h]

theorem isSmall_of_none (h : capitals.find? (·.has c.toNat) = none) (hdotted : c ≠ 'İ') :
    IsSmall c := by
  refine ⟨?_, ?_⟩
  · rw [lowerChar, if_neg hdotted, lowerCode_of_none h, Char.ofNat_toNat]
  · rintro rfl
    exact absurd h (by decide +kernel)

theorem isSmall_of_isSpace (h : isSpace c = true) : IsSmall c := by
  refine isSmall_of_none (space_settled h).1 ?_
  rintro rfl
  exact absurd h (by decide)

/-- The letters that lower-casing takes from no table are small and no spaces. -/
theorem small_settled : (['i', '\u0307', 'ς', 'σ'].all fun d =>
    (capitals.find? (·.has d.toNat)).isNone && d != 'İ' && !isSpace d) = true := by
  decide +kernel

theorem isSmall_of_mem (h : d ∈ ['i', '\u0307', 'ς', 'σ']) : IsSmall d ∧ isSpace d = false := by
  have hsettled := List.all_eq_true.mp small_settled d h
  simp only [Bool.and_eq_true, Option.isNone_iff_eq_none, bne_iff_ne, Bool.not_eq_true'] at hsettled
  obtain ⟨⟨hnone, hne⟩, hspace⟩ := hsettled
  exact ⟨isSmall_of_none hnone hne, hspace⟩

/-- The small form of a character is small, and is a space only if the character is one. -/
theorem lowerChar_settled (h : d ∈ lowerChar c) : IsSmall d ∧ isSpace d = isSpace c := by
  by_cases hdotted : c = 'İ'
  · subst c
    have hmem : d ∈ ['i', '\u0307', 'ς', 'σ'] := List.mem_append_left ['ς', 'σ'] h
    obtain ⟨hsmall, hspace⟩ := isSmall_of_mem hmem
    have hdotted : isSpace 'İ' = false := by decide
    exact ⟨hsmall, hspace.trans hdotted.symm⟩
  · rw [lowerChar, if_neg hdotted, List.mem_singleton] at h
    cases hfind : capitals.find? (·.has c.toNat) with
    | none =>
      rw [lowerCode_of_none hfind, Char.ofNat_toNat] at h
      subst d
      exact ⟨isSmall_of_none hfind hdotted, rfl⟩
    | some run =>
      have hhas := List.find?_some hfind
      obtain ⟨hnone, hspace, hvalid, hne⟩ := capital_settled (List.mem_of_find?_eq_some hfind) hhas
      have hcode : d.toNat = run.lower c.toNat := by
        rw [h, lowerCode, hfind, toNat_ofNat hvalid]
      refine ⟨isSmall_of_none (hcode ▸ hnone) ?_, ?_⟩
      · rintro rfl
        exact hne hcode.symm
      · have hblack : isSpace c = false := by
          apply Bool.eq_false_iff.mpr
          intro hc
          simp [(space_settled hc).1] at hfind
        rw [hblack, isSpace, hcode, hspace]

theorem lowerChar_ne_nil (c : Char) : lowerChar c ≠ [] := by
  rw [lowerChar]
  split <;> simp

/-! ## Texts -/

/-- What one character becomes between what is before it and what is after it. -/
def lowerAt (before : List Char) (c : Char) (after : List Char) : List Char :=
  if c = 'Σ' then [if meetsCased before && !meetsCased after then 'ς' else 'σ'] else lowerChar c

theorem lowerFrom_cons (before : List Char) (c : Char) (cs : List Char) :
    lowerFrom before (c :: cs) = lowerAt before c cs ++ lowerFrom (c :: before) cs := rfl

variable {before after cs : List Char}

theorem lowerAt_settled (h : d ∈ lowerAt before c after) : IsSmall d ∧ isSpace d = isSpace c := by
  by_cases hsigma : c = 'Σ'
  · subst c
    rw [lowerAt, if_pos rfl, List.mem_singleton] at h
    have hmem : d ∈ ['i', '\u0307', 'ς', 'σ'] := by
      rw [h]
      split <;> simp
    obtain ⟨hsmall, hspace⟩ := isSmall_of_mem hmem
    have hcapital : isSpace 'Σ' = false := by decide
    exact ⟨hsmall, hspace.trans hcapital.symm⟩
  · rw [lowerAt, if_neg hsigma] at h
    exact lowerChar_settled h

theorem lowerAt_ne_nil : lowerAt before c after ≠ [] := by
  rw [lowerAt]
  split
  · simp
  · exact lowerChar_ne_nil c

theorem lowerAt_of_isSmall (h : IsSmall c) : lowerAt before c after = [c] := by
  rw [lowerAt, if_neg h.2, h.1]

theorem isSmall_of_mem_lowerFrom (h : d ∈ lowerFrom before cs) : IsSmall d := by
  induction cs generalizing before with
  | nil => cases h
  | cons c cs ih =>
    rw [lowerFrom_cons] at h
    rcases List.mem_append.mp h with h | h
    · exact (lowerAt_settled h).1
    · exact ih h

theorem lowerFrom_of_isSmall (h : ∀ c ∈ cs, IsSmall c) : lowerFrom before cs = cs := by
  induction cs generalizing before with
  | nil => rfl
  | cons c cs ih =>
    obtain ⟨hc, hcs⟩ := List.forall_mem_cons.mp h
    rw [lowerFrom_cons, lowerAt_of_isSmall hc, ih hcs, List.singleton_append]

/-- Lower-casing a second time changes nothing. -/
theorem lowercase_lowercase (cs : List Char) : lowercase (lowercase cs) = lowercase cs :=
  lowerFrom_of_isSmall fun _ => isSmall_of_mem_lowerFrom

/-! ## Surroundings -/

theorem meetsCased_of_isSpace (h : isSpace c = true) (cs : List Char) :
    meetsCased (c :: cs) = false := by
  obtain ⟨-, hignorable, hcased⟩ := space_settled h
  rw [meetsCased, hignorable, hcased]
  rfl

theorem ascii_settled : ∀ n < 128,
    caseIgnorable.holds (Char.ofNat n).toLower.toNat = caseIgnorable.holds (Char.ofNat n).toNat ∧
      cased.holds (Char.ofNat n).toLower.toNat = cased.holds (Char.ofNat n).toNat ∧
      isAscii (Char.ofNat n).toLower = true ∧
      (Char.ofNat n).toLower.toLower = (Char.ofNat n).toLower := by
  decide +kernel

theorem lowerAt_ascii (h : isAscii c = true) : lowerAt before c after = [c.toLower] := by
  have hsigma : c ≠ 'Σ' := by
    rintro rfl
    exact absurd h (by decide)
  rw [lowerAt, if_neg hsigma, lowerChar_ascii h]

/-- What becomes of a character and what it means for its neighbours does not depend on its ASCII
case. -/
theorem toLower_settled (c : Char) :
    caseIgnorable.holds c.toLower.toNat = caseIgnorable.holds c.toNat ∧
      cased.holds c.toLower.toNat = cased.holds c.toNat ∧ isSpace c.toLower = isSpace c ∧
      ∀ before after, lowerAt before c.toLower after = lowerAt before c after := by
  cases hc : isAscii c with
  | false =>
    rw [toLower_of_not_isAscii hc]
    exact ⟨rfl, rfl, rfl, fun _ _ => rfl⟩
  | true =>
    obtain ⟨n, hn, rfl⟩ := eq_ofNat_of_isAscii hc
    obtain ⟨hignorable, hcased, hascii, hagain⟩ := ascii_settled n hn
    refine ⟨hignorable, hcased, isSpace_toLower hc, fun before after => ?_⟩
    rw [lowerAt_ascii hc, lowerAt_ascii hascii, hagain]

end FilterQuery.Text
