import FilterQuery.Proofs.Lexemes

/-!
Spellings of operators up to letter case. On ASCII texts the folded form depends only on the
letters and not on their case, so a keyword phrase stands for the same operator in every case.
-/
namespace FilterQuery

open Text

def isAscii (c : Char) : Bool := c.toNat < 128

theorem eq_ofNat_of_isAscii {c : Char} (h : isAscii c = true) :
    ∃ n, n < 128 ∧ c = Char.ofNat n :=
  ⟨c.toNat, by simpa [isAscii] using h, (Char.ofNat_toNat c).symm⟩

/-- Only the first run of capitals has ASCII letters. -/
theorem capitals_beyond : ∀ run ∈ capitals.tail, 128 ≤ run.first := by
  decide +kernel

theorem lowerCode_ascii {n : Nat} (hn : n < 128) :
    lowerCode n = if 65 ≤ n ∧ n ≤ 90 then n + 32 else n := by
  have hruns : capitals = ⟨65, 90, 1, 97⟩ :: capitals.tail := rfl
  have hnone : capitals.tail.find? (·.has n) = none := by
    refine List.find?_eq_none.mpr fun run hrun => ?_
    have hfirst := capitals_beyond run hrun
    simp [CapitalRun.has]
    omega
  rw [lowerCode, hruns, List.find?_cons, hnone]
  by_cases h : 65 ≤ n ∧ n ≤ 90
  · simp [CapitalRun.has, CapitalRun.lower, h, Nat.mod_one]
    omega
  · have hfirst : CapitalRun.has ⟨65, 90, 1, 97⟩ n = false := by
      simp [CapitalRun.has]
      omega
    simp [hfirst, h]

theorem lowerChar_ascii {c : Char} (h : isAscii c = true) : lowerChar c = [c.toLower] := by
  obtain ⟨n, hn, rfl⟩ := eq_ofNat_of_isAscii h
  have hdotted : Char.ofNat n ≠ 'İ' := by
    intro heq
    rw [heq] at h
    exact absurd h (by decide)
  have hcode : (Char.ofNat n).toNat = n := by
    have hall : ∀ n < 128, (Char.ofNat n).toNat = n := by decide
    exact hall n hn
  have hall : ∀ n < 128, Char.ofNat (if 65 ≤ n ∧ n ≤ 90 then n + 32 else n) =
      (Char.ofNat n).toLower := by
    decide
  rw [lowerChar, if_neg hdotted, hcode, lowerCode_ascii hn, hall n hn]

theorem isSpace_toLower {c : Char} (h : isAscii c = true) : isSpace c.toLower = isSpace c := by
  obtain ⟨n, hn, rfl⟩ := eq_ofNat_of_isAscii h
  have hall : ∀ n < 128, isSpace (Char.ofNat n).toLower = isSpace (Char.ofNat n) := by
    decide
  exact hall n hn

/-- Only ASCII letters have small forms among the ASCII letters. -/
theorem toLower_of_not_isAscii {c : Char} (h : isAscii c = false) : c.toLower = c := by
  have hupper : ¬ (c.val ≥ 'A'.val ∧ c.val ≤ 'Z'.val) := by
    rintro ⟨-, hle⟩
    have hsmall : c.toNat ≤ 90 := UInt32.le_iff_toNat_le.mp hle
    simp only [isAscii, decide_eq_false_iff_not] at h
    omega
  exact dif_neg hupper

theorem isAscii_of_toLower {c : Char} (h : isAscii c.toLower = true) : isAscii c = true := by
  by_contra hc
  rw [toLower_of_not_isAscii (by simpa using hc)] at h
  exact hc h

theorem lowercase_ascii {cs : List Char} (h : ∀ c ∈ cs, isAscii c = true) :
    lowercase cs = cs.map Char.toLower := by
  have aux : ∀ before, lowerFrom before cs = cs.map Char.toLower := by
    induction cs with
    | nil => intro before; rfl
    | cons c cs ih =>
      intro before
      have hc : isAscii c = true := h c (List.mem_cons_self ..)
      have hsigma : c ≠ 'Σ' := by
        rintro rfl
        exact absurd hc (by decide)
      have hcs := ih (fun d hd => h d (List.mem_cons_of_mem c hd)) (c :: before)
      simp [lowerFrom, hsigma, lowerChar_ascii hc, hcs]
  exact aux []

theorem trimStart_map_toLower {cs : List Char} (h : ∀ c ∈ cs, isAscii c = true) :
    (trimStart cs).map Char.toLower = trimStart (cs.map Char.toLower) := by
  induction cs with
  | nil => rfl
  | cons c cs ih =>
    have hc := isSpace_toLower (h c (List.mem_cons_self ..))
    have hcs := ih fun d hd => h d (List.mem_cons_of_mem c hd)
    by_cases hspace : isSpace c = true
    · simp only [trimStart, List.map_cons, List.dropWhile_cons, hc, hspace, if_true] at hcs ⊢
      exact hcs
    · simp [trimStart, hc, hspace]

theorem trim_map_toLower {cs : List Char} (h : ∀ c ∈ cs, isAscii c = true) :
    (trim cs).map Char.toLower = trim (cs.map Char.toLower) := by
  have hstart : ∀ c ∈ (trimStart cs).reverse, isAscii c = true := by
    intro c hc
    exact h c ((List.dropWhile_sublist _).subset (List.mem_reverse.mp hc))
  simp only [trim, trimEnd, List.map_reverse, trimStart_map_toLower hstart,
    trimStart_map_toLower h]

namespace Operator

theorem fold_ascii {cs : List Char} (h : ∀ c ∈ cs, isAscii c = true) :
    fold cs = squeeze (trim (cs.map Char.toLower)) := by
  have htrim : ∀ c ∈ trim cs, isAscii c = true := by
    intro c hc
    have hstart := (List.dropWhile_sublist _).subset (List.mem_reverse.mp hc)
    exact h c ((List.dropWhile_sublist _).subset (List.mem_reverse.mp hstart))
  rw [fold, lowercase_ascii htrim, trim_map_toLower h]

/-- The folded form of an ASCII text does not depend on its letter case. -/
theorem fold_eq_of_toLower {raw raw' : List Char} (h : ∀ c ∈ raw', isAscii c = true)
    (hcase : raw.map Char.toLower = raw'.map Char.toLower) : fold raw = fold raw' := by
  have hraw : ∀ c ∈ raw, isAscii c = true := by
    intro c hc
    have hmem : c.toLower ∈ raw'.map Char.toLower := hcase ▸ List.mem_map_of_mem hc
    obtain ⟨d, hd, heq⟩ := List.mem_map.mp hmem
    obtain ⟨n, hn, rfl⟩ := eq_ofNat_of_isAscii (h d hd)
    have hall : ∀ n < 128, isAscii (Char.ofNat n).toLower = true := by decide
    exact isAscii_of_toLower (heq ▸ hall n hn)
  rw [fold_ascii hraw, fold_ascii h, hcase]

end Operator

namespace Grammar

open Scanner

/-! Words found in a text differ from the words sought in letter case only. -/

theorem keyword_sameLetters {word : String} {cs raw lexeme rest : List Char}
    (h : Terminal.keyword word cs = .found raw lexeme rest) :
    raw.map Char.toLower = word.toList.map Char.toLower := by
  simp only [Terminal.keyword, Terminal.wordBy] at h
  split at h
  · next hstrip =>
    split at h
    · simp at h
    · injection h with ha _ _
      exact ha ▸ stripBy_map Char.toLower eq_of_beq hstrip
  · simp at h

theorem phrase_sameLetters {words : List String} {cs raw lexeme rest : List Char}
    (h : Terminal.phrase words cs = .found raw lexeme rest) :
    raw.map Char.toLower = (joinWords words).map Char.toLower := by
  fun_induction Terminal.phrase words generalizing cs raw lexeme rest with
  | case1 =>
    injection h with ha _ _
    exact ha ▸ rfl
  | case2 word => exact keyword_sameLetters h
  | case3 word words hwords ih =>
    have hjoin : joinWords (word :: words) = word.toList ++ ' ' :: joinWords words := by
      cases words with
      | nil => simp at hwords
      | cons => rfl
    simp only [Terminal.followedBy, Terminal.map] at h
    split at h
    · simp at h
    · next first _ _ hfirst =>
      have hhead := keyword_sameLetters hfirst
      grind

namespace Spelling

def text : Spelling → List Char
  | symbol text => text.toList
  | phrase words => joinWords words

/-- The spelling is in ASCII and in the form in which spellings are compared. -/
def isFolded (s : Spelling) : Bool :=
  s.text.all isAscii && squeeze (trim (s.text.map Char.toLower)) == s.text

theorem operator_of_isFolded {s : Spelling} (h : s.isFolded = true) :
    s.operator = .ofFolded (String.ofList s.text) := by
  simp only [isFolded, Bool.and_eq_true, List.all_eq_true, beq_iff_eq] at h
  have hfold : Operator.fold s.text = s.text := (Operator.fold_ascii h.1).trans h.2
  cases s <;> simp_all [operator, Operator.ofSpelling, text]

end Spelling

end Grammar

end FilterQuery
