import FilterQuery.Proofs.Offsets
import FilterQuery.Proofs.SmallLetters
import FilterQuery.Proofs.Tokens
import FilterQuery.Scanner.Session
import Mathlib.Computability.RegularExpressions
import Mathlib.Data.List.TakeWhile

/-!
Numbers and names as regular expressions. Where a session is asked for a number, it takes the
longest beginning of the text ahead that the expression of a number matches, and it finds none only
where no beginning matches. Names are taken in the same way, but the word `not` is refused.
-/
namespace FilterQuery.Scanner

open Text

namespace Pattern

open RegularExpression
open Grammar (IsWhole)
open Number (StartsWhole)

/-! ## Expressions -/

/-- Any one of the characters from the first to the last. -/
def range (first last : Char) : RegularExpression Char :=
  ((List.range' first.toNat (last.toNat + 1 - first.toNat)).map fun n => char (Char.ofNat n)).sum

def optional (r : RegularExpression Char) : RegularExpression Char := 1 + r

def letter : RegularExpression Char := range 'A' 'Z' + range 'a' 'z'

def digit : RegularExpression Char := range '0' '9'

/-- `0|[1-9][0-9]*` -/
def whole : RegularExpression Char := char '0' + range '1' '9' * digit.star

/-- `\.[0-9]+` -/
def fraction : RegularExpression Char := char '.' * (digit * digit.star)

/-- `-?(0|[1-9][0-9]*)(\.[0-9]+)?` -/
def numeral : RegularExpression Char := optional (char '-') * (whole * optional fraction)

/-- `[A-Za-z][A-Za-z0-9_]*` -/
def name : RegularExpression Char := letter * (letter + (digit + char '_')).star

/-- The word `not` in any letter case. -/
def negation : RegularExpression Char :=
  (char 'n' + char 'N') * ((char 'o' + char 'O') * (char 't' + char 'T'))

/-- The text begins with `l`, and the expression matches that. -/
structure Begins (r : RegularExpression Char) (cs l : List Char) : Prop where
  start : l <+: cs
  matched : l ∈ r.matches'

/-- No other beginning that the expression matches is longer. -/
structure Longest (r : RegularExpression Char) (cs l : List Char) : Prop extends
    Begins r cs l where
  longest : ∀ l', Begins r cs l' → l'.length ≤ l.length

variable {r r' : RegularExpression Char} {ok ok' : Char → Bool} {c : Char}
  {l l' cs rest lexeme passed : List Char}

/-- A text has one longest beginning at most. -/
theorem Longest.unique (h : Longest r cs l) (h' : Longest r cs l') : l = l' :=
  (List.prefix_of_prefix_length_le h.start h'.start (h'.longest l h.toBegins)).eq_of_length
    (Nat.le_antisymm (h'.longest l h.toBegins) (h.longest l' h'.toBegins))

/-! ## Classes of characters -/

/-- The expression matches single characters, those of the class. -/
structure IsClass (r : RegularExpression Char) (ok : Char → Bool) : Prop where
  mem_iff : ∀ {l}, l ∈ r.matches' ↔ ∃ c, ok c = true ∧ l = [c]

theorem mem_sum {rs : List (RegularExpression Char)} :
    l ∈ rs.sum.matches' ↔ ∃ r ∈ rs, l ∈ r.matches' := by
  induction rs with
  | nil => simp
  | cons r rs ih =>
    rw [List.sum_cons, matches'_add, Language.mem_add, ih]
    simp

theorem isClass_char (c : Char) : IsClass (char c) (· == c) where
  mem_iff := by
    simp only [matches'_char, beq_iff_eq, exists_eq_left]
    rfl

theorem le_iff_toNat_le {a b : Char} : a ≤ b ↔ a.toNat ≤ b.toNat := UInt32.le_iff_toNat_le

/-- Code points below the surrogates are all characters. -/
theorem isClass_range {first last : Char} (hlast : last.toNat < 0xd800) :
    IsClass (range first last) fun c => first ≤ c && c ≤ last := by
  refine ⟨fun {l} => ?_⟩
  simp only [range, mem_sum, List.mem_map, List.mem_range'_1, Bool.and_eq_true,
    decide_eq_true_eq, le_iff_toNat_le]
  constructor
  · rintro ⟨_, ⟨n, ⟨hfirst, hbound⟩, rfl⟩, hmem⟩
    have hn : (Char.ofNat n).toNat = n := toNat_ofNat (Or.inl (by omega))
    exact ⟨Char.ofNat n, ⟨by omega, by omega⟩, hmem⟩
  · rintro ⟨c, ⟨hfirst, hbound⟩, rfl⟩
    exact ⟨char c, ⟨c.toNat, ⟨hfirst, by omega⟩, by rw [Char.ofNat_toNat]⟩, rfl⟩

namespace IsClass

theorem congr (h : IsClass r ok) (hok : ∀ c, ok c = ok' c) : IsClass r ok' := by
  rwa [← funext hok]

theorem add (h : IsClass r ok) (h' : IsClass r' ok') : IsClass (r + r') fun c => ok c || ok' c := by
  refine ⟨fun {l} => ?_⟩
  simp only [matches'_add, Language.mem_add, h.mem_iff, h'.mem_iff, Bool.or_eq_true]
  constructor
  · rintro (⟨c, hc, rfl⟩ | ⟨c, hc, rfl⟩)
    · exact ⟨c, Or.inl hc, rfl⟩
    · exact ⟨c, Or.inr hc, rfl⟩
  · rintro ⟨c, hc | hc, rfl⟩
    · exact Or.inl ⟨c, hc, rfl⟩
    · exact Or.inr ⟨c, hc, rfl⟩

/-- One character of the class, and then what the other expression matches. -/
theorem mem_mul (h : IsClass r ok) :
    l ∈ (r * r').matches' ↔ ∃ c cs, l = c :: cs ∧ ok c = true ∧ cs ∈ r'.matches' := by
  simp only [matches'_mul, Language.mem_mul]
  constructor
  · rintro ⟨a, ha, b, hb, rfl⟩
    obtain ⟨c, hc, rfl⟩ := h.mem_iff.mp ha
    exact ⟨c, b, rfl, hc, hb⟩
  · rintro ⟨c, cs, rfl, hc, hcs⟩
    exact ⟨[c], h.mem_iff.mpr ⟨c, hc, rfl⟩, cs, hcs, rfl⟩

/-- Any number of characters of the class. -/
theorem mem_star (h : IsClass r ok) : l ∈ r.star.matches' ↔ ∀ c ∈ l, ok c = true := by
  rw [matches'_star, Language.mem_kstar]
  constructor
  · rintro ⟨parts, rfl, hparts⟩ c hc
    obtain ⟨part, hpart, hc⟩ := List.mem_flatten.mp hc
    obtain ⟨d, hd, rfl⟩ := h.mem_iff.mp (hparts part hpart)
    rwa [List.mem_singleton.mp hc]
  · intro hl
    refine ⟨l.map fun c => [c], (List.flatMap_singleton' l).symm, ?_⟩
    intro part hpart
    obtain ⟨c, hc, rfl⟩ := List.mem_map.mp hpart
    exact h.mem_iff.mpr ⟨c, hl c hc, rfl⟩

end IsClass

theorem isClass_letter : IsClass letter Char.isAlpha :=
  ((isClass_range (by decide)).add (isClass_range (by decide))).congr fun c =>
    congrArg (· || c.isLower) (Bool.decide_and ..).symm

theorem isClass_digit : IsClass digit Char.isDigit := isClass_range (by decide)

/-- Of all characters only the two forms of an ASCII letter become the small one. -/
theorem isClass_eitherCase {small capital : Char}
    (hascii : isAscii small = true ∧ isAscii capital = true)
    (hcases : ∀ n < 128, (Char.ofNat n == small || Char.ofNat n == capital) =
      ((Char.ofNat n).toLower == small)) :
    IsClass (char small + char capital) (·.toLower == small) := by
  refine ((isClass_char small).add (isClass_char capital)).congr fun c => ?_
  by_cases hc : isAscii c = true
  · obtain ⟨n, hn, rfl⟩ := eq_ofNat_of_isAscii hc
    exact hcases n hn
  · have hlower : c.toLower = c := toLower_of_not_isAscii (by simpa using hc)
    have hcapital : c ≠ capital := by
      rintro rfl
      exact hc hascii.2
    rw [hlower, beq_eq_false_iff_ne.mpr hcapital, Bool.or_false]

theorem mem_optional : l ∈ (optional r).matches' ↔ l = [] ∨ l ∈ r.matches' := by
  rw [optional, matches'_add, Language.mem_add, matches'_epsilon, Language.mem_one]

/-! ## Names -/

theorem mem_name : l ∈ name.matches' ↔ ∃ c cs, l = c :: cs ∧ c.isAlpha = true ∧
    ∀ d ∈ cs, Terminal.isIdentifierChar d = true := by
  have hclass : IsClass (letter + (digit + char '_')) Terminal.isIdentifierChar :=
    (isClass_letter.add (isClass_digit.add (isClass_char '_'))).congr fun c =>
      (Bool.or_assoc ..).symm
  simp only [name, isClass_letter.mem_mul, hclass.mem_star]

theorem mem_negation : l ∈ negation.matches' ↔ l.map Char.toLower = ['n', 'o', 't'] := by
  have hn : IsClass (char 'n' + char 'N') (·.toLower == 'n') :=
    isClass_eitherCase (by decide) (by decide)
  have ho : IsClass (char 'o' + char 'O') (·.toLower == 'o') :=
    isClass_eitherCase (by decide) (by decide)
  have ht : IsClass (char 't' + char 'T') (·.toLower == 't') :=
    isClass_eitherCase (by decide) (by decide)
  simp only [negation, hn.mem_mul, ho.mem_mul, ht.mem_iff, List.map_eq_cons_iff, beq_iff_eq,
    List.map_eq_nil_iff]
  constructor
  · rintro ⟨c, _, rfl, hc, d, _, rfl, hd, e, he, rfl⟩
    exact ⟨c, _, rfl, hc, d, _, rfl, hd, e, _, rfl, he, rfl⟩
  · rintro ⟨c, _, rfl, hc, d, _, rfl, hd, e, _, rfl, he, rfl⟩
    exact ⟨c, _, rfl, hc, d, _, rfl, hd, e, he, rfl⟩

/-- A run of characters of a class is as long as any beginning that has only such characters. -/
theorem length_le_takeWhile (hstart : l <+: cs) (hl : ∀ c ∈ l, ok c = true) :
    l.length ≤ (cs.takeWhile ok).length := by
  obtain ⟨tail, rfl⟩ := hstart
  rw [List.takeWhile_append_of_pos hl, List.length_append]
  omega

/-- A name goes on to the first character that is none of a name. -/
theorem longest_name (hc : c.isAlpha = true) (cs : List Char) :
    Longest name (c :: cs) (c :: cs.takeWhile Terminal.isIdentifierChar) where
  start := (List.prefix_cons_inj c).mpr (List.takeWhile_prefix _)
  matched := mem_name.mpr ⟨c, _, rfl, hc, fun _ hd => List.mem_takeWhile_imp hd⟩
  longest l' h := by
    obtain ⟨d, ds, rfl, -, hds⟩ := mem_name.mp h.matched
    obtain ⟨-, hstart⟩ := List.cons_prefix_cons.mp h.start
    have hle := length_le_takeWhile hstart hds
    simpa only [List.length_cons] using Nat.succ_le_succ hle

theorem begins_letter (hc : c.isAlpha = true) (cs : List Char) : Begins letter (c :: cs) [c] where
  start := ⟨cs, rfl⟩
  matched := isClass_letter.mem_iff.mpr ⟨c, hc, rfl⟩

theorem identifier_found {a : String} (h : Terminal.identifier cs = .found a lexeme rest) :
    Longest name cs lexeme ∧ lexeme ∉ negation.matches' ∧ a = String.ofList lexeme := by
  unfold Terminal.identifier at h
  split at h
  · cases h
  · next c cs =>
    split at h
    · next hc =>
      dsimp only at h
      split at h
      · cases h
      · next hnot =>
        cases h
        exact ⟨longest_name hc cs, fun hmem => hnot (mem_negation.mp hmem), rfl⟩
    · cases h

/-- Nothing is read where no letter comes first, or where the name is the word `not`. -/
theorem identifier_missing (h : Terminal.identifier cs = .missing passed) :
    (∀ l, ¬ Begins letter cs l) ∨ ∃ l, Longest name cs l ∧ l ∈ negation.matches' := by
  unfold Terminal.identifier at h
  split at h
  · refine Or.inl fun l hl => ?_
    obtain ⟨c, -, rfl⟩ := isClass_letter.mem_iff.mp hl.matched
    exact List.cons_ne_nil c [] (List.prefix_nil.mp hl.start)
  · next c cs =>
    split at h
    · next hc =>
      dsimp only at h
      split at h
      · next hnot => exact Or.inr ⟨_, longest_name hc cs, mem_negation.mpr hnot⟩
      · cases h
    · next hc =>
      refine Or.inl fun l hl => hc ?_
      obtain ⟨d, hd, rfl⟩ := isClass_letter.mem_iff.mp hl.matched
      rwa [← (List.cons_prefix_cons.mp hl.start).1]

/-! ## Numbers -/

theorem isClass_nonzero : IsClass (range '1' '9') fun c => c.isDigit && c != '0' := by
  refine (isClass_range (by decide)).congr fun c => ?_
  have hdigit : c.isDigit = ('0' ≤ c && c ≤ '9') := rfl
  have hzero : c = '0' ↔ c.toNat = 48 := ⟨fun h => h ▸ rfl, fun h => Char.toNat_inj.mp h⟩
  have hcodes : '0'.toNat = 48 ∧ '1'.toNat = 49 := ⟨rfl, rfl⟩
  rw [hdigit, Bool.eq_iff_iff]
  simp only [Bool.and_eq_true, decide_eq_true_eq, bne_iff_ne, ne_eq, hzero, le_iff_toNat_le]
  omega

theorem mem_whole : l ∈ whole.matches' ↔ StartsWhole l ∧ ∀ c ∈ l, c.isDigit = true := by
  simp only [whole, matches'_add, Language.mem_add, (isClass_char '0').mem_iff,
    isClass_nonzero.mem_mul, isClass_digit.mem_star, beq_iff_eq, exists_eq_left, Bool.and_eq_true,
    bne_iff_ne, StartsWhole]
  constructor
  · rintro (rfl | ⟨c, cs, rfl, ⟨hc, hne⟩, hcs⟩)
    · exact ⟨Or.inl rfl, List.forall_mem_singleton.mpr rfl⟩
    · exact ⟨Or.inr ⟨c, cs, rfl, hc, hne⟩, List.forall_mem_cons.mpr ⟨hc, hcs⟩⟩
  · rintro ⟨hzero | ⟨c, cs, rfl, hc, hne⟩, hdigits⟩
    · exact Or.inl hzero
    · exact Or.inr ⟨c, cs, rfl, ⟨hc, hne⟩, (List.forall_mem_cons.mp hdigits).2⟩

theorem mem_fraction : l ∈ fraction.matches' ↔
    ∃ ds, ds ≠ [] ∧ (∀ c ∈ ds, c.isDigit = true) ∧ l = '.' :: ds := by
  simp only [fraction, (isClass_char '.').mem_mul, isClass_digit.mem_mul, isClass_digit.mem_star,
    beq_iff_eq]
  constructor
  · rintro ⟨_, _, rfl, rfl, c, cs, rfl, hc, hcs⟩
    exact ⟨c :: cs, List.cons_ne_nil c cs, List.forall_mem_cons.mpr ⟨hc, hcs⟩, rfl⟩
  · rintro ⟨ds, hne, hds, rfl⟩
    obtain ⟨c, cs, rfl⟩ := List.exists_cons_of_ne_nil hne
    obtain ⟨hc, hcs⟩ := List.forall_mem_cons.mp hds
    exact ⟨'.', c :: cs, rfl, rfl, c, cs, rfl, hc, hcs⟩

theorem mem_numeral : l ∈ numeral.matches' ↔ ∃ sign ds fs, l = sign ++ (ds ++ fs) ∧
    IsWhole sign ds ∧ (fs = [] ∨ fs ∈ fraction.matches') := by
  simp only [numeral, matches'_mul, Language.mem_mul, mem_optional, mem_whole,
    (isClass_char '-').mem_iff, beq_iff_eq, exists_eq_left]
  constructor
  · rintro ⟨sign, hsign, _, ⟨ds, ⟨hstarts, hds⟩, fs, hfs, rfl⟩, rfl⟩
    exact ⟨sign, ds, fs, rfl, ⟨hsign, hstarts, hds⟩, hfs⟩
  · rintro ⟨sign, ds, fs, rfl, hwhole, hfs⟩
    exact ⟨sign, hwhole.sign, ds ++ fs, ⟨ds, ⟨hwhole.starts, hwhole.digits⟩, fs, hfs, rfl⟩, rfl⟩

/-- A point needs digits on both sides, and a zero before other digits is a number of its own. -/
example : "-10.05".toList ∈ numeral.matches' ∧ "1.".toList ∉ numeral.matches' ∧
    "01".toList ∉ numeral.matches' := by
  decide +kernel

/-! Each part of a number is read in full from a text that begins with it. -/

theorem splitSign_whole {sign ds : List Char} (h : IsWhole sign ds) (rest : List Char) :
    Terminal.splitSign (sign ++ (ds ++ rest)) = (sign, ds ++ rest) := by
  obtain ⟨c, cs, rfl, hc⟩ := h.head
  rcases h.sign with rfl | rfl
  · unfold Terminal.splitSign
    split
    · next heq =>
      rw [(List.cons.inj heq).1] at hc
      cases hc
    · rfl
  · rfl

theorem splitDigits_append {ds : List Char} (hds : ∀ c ∈ ds, c.isDigit = true)
    (rest : List Char) : Terminal.splitDigits (ds ++ rest) =
      (ds ++ rest.takeWhile Char.isDigit, rest.dropWhile Char.isDigit) := by
  rw [Terminal.splitDigits, List.takeWhile_append_of_pos hds, List.dropWhile_append_of_pos hds]

/-- More digits belong to it only if they come at once. -/
theorem splitWhole_append_of {ds : List Char} (hstarts : StartsWhole ds)
    (hds : ∀ c ∈ ds, c.isDigit = true) (rest : List Char) :
    ∃ more tail, Terminal.splitWhole (ds ++ rest) = some (ds ++ more, tail) ∧
      (Terminal.startsWith Char.isDigit rest = false → more = [] ∧ tail = rest) := by
  rcases hstarts with rfl | ⟨c, cs, rfl, hc, hne⟩
  · exact ⟨[], rest, rfl, fun _ => ⟨rfl, rfl⟩⟩
  · refine ⟨rest.takeWhile Char.isDigit, rest.dropWhile Char.isDigit, ?_, Grammar.takeWhile_none⟩
    have hdigits := splitDigits_append hds rest
    rw [List.cons_append] at hdigits
    simp [Terminal.splitWhole, hne, hc, hdigits]

theorem splitFraction_append_of {fs : List Char} (h : fs ∈ fraction.matches') (rest : List Char) :
    ∃ more tail, Terminal.splitFraction (fs ++ rest) = some (fs ++ more, tail) := by
  obtain ⟨ds, hne, hds, rfl⟩ := mem_fraction.mp h
  obtain ⟨c, cs, rfl⟩ := List.exists_cons_of_ne_nil hne
  have hc : c.isDigit = true := hds c (List.mem_cons_self ..)
  have hdigits := splitDigits_append hds rest
  rw [List.cons_append] at hdigits
  refine ⟨rest.takeWhile Char.isDigit, rest.dropWhile Char.isDigit, ?_⟩
  simp [Terminal.splitFraction, Terminal.startsWith, hc, hdigits]

/-! Each part that is read is one of a number. -/

theorem sign_of_splitSign (cs : List Char) :
    (Terminal.splitSign cs).1 = [] ∨ (Terminal.splitSign cs).1 = ['-'] := by
  unfold Terminal.splitSign
  split
  · exact Or.inr rfl
  · exact Or.inl rfl

theorem startsWhole_of_splitWhole {ds : List Char}
    (h : Terminal.splitWhole cs = some (ds, rest)) :
    StartsWhole ds ∧ ∀ c ∈ ds, c.isDigit = true := by
  cases cs with
  | nil => cases h
  | cons c cs =>
    simp only [Terminal.splitWhole] at h
    split at h
    · cases h
      exact ⟨Or.inl rfl, List.forall_mem_singleton.mpr rfl⟩
    · next hzero =>
      split at h
      · next hc =>
        cases h
        refine ⟨Or.inr ⟨c, cs.takeWhile Char.isDigit, ?_, hc, by simpa using hzero⟩, ?_⟩
        · exact List.takeWhile_cons_of_pos hc
        · exact fun d hd => List.mem_takeWhile_imp hd
      · cases h

theorem mem_fraction_of_splitFraction {fs : List Char}
    (h : Terminal.splitFraction cs = some (fs, rest)) : fs ∈ fraction.matches' := by
  unfold Terminal.splitFraction at h
  split at h
  · next cs =>
    split at h
    · next hdigit =>
      cases h
      refine mem_fraction.mpr ⟨_, ?_, fun d hd => List.mem_takeWhile_imp hd, rfl⟩
      cases cs with
      | nil => cases hdigit
      | cons c cs =>
        have hc : c.isDigit = true := hdigit
        rw [List.takeWhile_cons_of_pos hc]
        exact List.cons_ne_nil c _
    · cases h
  · cases h

theorem number_whole {sign ds body : List Char} (hsign : Terminal.splitSign cs = (sign, body))
    (hwhole : Terminal.splitWhole body = some (ds, rest))
    (hfraction : Terminal.splitFraction rest = none) :
    Terminal.number cs = .found (.integer (sign ++ ds)) (sign ++ ds) rest := by
  simp only [Terminal.number, hsign, hwhole, hfraction]

theorem number_fraction {sign ds fs body tail : List Char}
    (hsign : Terminal.splitSign cs = (sign, body))
    (hwhole : Terminal.splitWhole body = some (ds, tail))
    (hfraction : Terminal.splitFraction tail = some (fs, rest)) :
    Terminal.number cs = .found (.decimal (sign ++ ds ++ fs)) (sign ++ ds ++ fs) rest := by
  simp only [Terminal.number, hsign, hwhole, hfraction]

/-- A text that begins with a number has one read from it, and none that is shorter. -/
theorem number_append_of (h : l ∈ numeral.matches') (rest : List Char) :
    ∃ a lexeme tail, Terminal.number (l ++ rest) = .found a lexeme tail ∧
      l.length ≤ lexeme.length := by
  obtain ⟨sign, ds, fs, rfl, hwhole, hfs⟩ := mem_numeral.mp h
  have hsign := splitSign_whole hwhole (fs ++ rest)
  obtain ⟨more, tail, hsplit, hmore⟩ :=
    splitWhole_append_of hwhole.starts hwhole.digits (fs ++ rest)
  have htext : sign ++ (ds ++ fs) ++ rest = sign ++ (ds ++ (fs ++ rest)) := by
    rw [List.append_assoc, List.append_assoc]
  rw [htext]
  rcases hfs with hnone | hfs
  · -- what follows may add digits and a fraction, but takes nothing away
    have hle : (sign ++ (ds ++ fs)).length ≤ (sign ++ (ds ++ more)).length := by
      simp only [hnone, List.length_append, List.length_nil]
      omega
    cases hfraction : Terminal.splitFraction tail with
    | none => exact ⟨_, _, tail, number_whole hsign hsplit hfraction, hle⟩
    | some found =>
      refine ⟨_, _, found.2, number_fraction hsign hsplit hfraction, hle.trans ?_⟩
      simp only [List.length_append]
      omega
  · -- the point ends the digits before it
    obtain ⟨rfl, rfl⟩ : more = [] ∧ tail = fs ++ rest := by
      obtain ⟨_, -, -, rfl⟩ := mem_fraction.mp hfs
      exact hmore rfl
    obtain ⟨more, last, hfraction⟩ := splitFraction_append_of hfs rest
    refine ⟨_, _, last, number_fraction hsign hsplit hfraction, ?_⟩
    simp only [List.length_append, List.length_nil]
    omega

theorem point_not_mem_whole {sign ds : List Char} (h : IsWhole sign ds) : '.' ∉ sign ++ ds := by
  intro hpoint
  rcases List.mem_append.mp hpoint with hsign | hds
  · rcases h.sign with rfl | rfl
    · cases hsign
    · exact absurd hsign (by decide)
  · exact absurd (h.digits '.' hds) (by decide)

/-- A number with a point is a decimal, any other an integer. -/
def numeralOf (l : List Char) : Terminal.Numeral := if '.' ∈ l then .decimal l else .integer l

/-- What is read is a number, and the point tells which kind it is of. -/
theorem number_found {a : Terminal.Numeral} (h : Terminal.number cs = .found a lexeme rest) :
    lexeme ∈ numeral.matches' ∧ a = numeralOf lexeme := by
  obtain ⟨sign, body, hsign⟩ : ∃ sign body, Terminal.splitSign cs = (sign, body) := ⟨_, _, rfl⟩
  cases hwhole : Terminal.splitWhole body with
  | none => simp only [Terminal.number, hsign, hwhole, reduceCtorEq] at h
  | some found =>
    obtain ⟨ds, tail⟩ := found
    have hparts : IsWhole sign ds := by
      obtain ⟨hstarts, hdigits⟩ := startsWhole_of_splitWhole hwhole
      exact ⟨by simpa only [hsign] using sign_of_splitSign cs, hstarts, hdigits⟩
    cases hfraction : Terminal.splitFraction tail with
    | none =>
      rw [number_whole hsign hwhole hfraction] at h
      cases h
      refine ⟨mem_numeral.mpr ⟨sign, ds, [], by rw [List.append_nil], hparts, Or.inl rfl⟩, ?_⟩
      rw [numeralOf, if_neg (point_not_mem_whole hparts)]
    | some found =>
      obtain ⟨fs, last⟩ := found
      have hfs := mem_fraction_of_splitFraction hfraction
      rw [number_fraction hsign hwhole hfraction] at h
      cases h
      refine ⟨mem_numeral.mpr ⟨sign, ds, fs, by rw [List.append_assoc], hparts, Or.inr hfs⟩, ?_⟩
      obtain ⟨_, -, -, rfl⟩ := mem_fraction.mp hfs
      rw [numeralOf, if_pos (by simp)]

theorem number_longest {a : Terminal.Numeral} (h : Terminal.number cs = .found a lexeme rest) :
    Longest numeral cs lexeme where
  start := ⟨rest, Terminal.number_splits _ _ _ _ h⟩
  matched := (number_found h).1
  longest l' hl := by
    obtain ⟨tail, rfl⟩ := hl.start
    obtain ⟨a', lexeme', tail', hfound, hle⟩ := number_append_of hl.matched tail
    rw [hfound] at h
    cases h
    exact hle

theorem number_missing {passed : List Char} (h : Terminal.number cs = .missing passed)
    (l : List Char) : ¬ Begins numeral cs l := by
  intro hl
  obtain ⟨tail, rfl⟩ := hl.start
  obtain ⟨a, lexeme, tail', hfound, -⟩ := number_append_of hl.matched tail
  rw [hfound] at h
  cases h

end Pattern

/-! ## Sessions -/

namespace Session

open Pattern

variable {α : Type} {s : Session} {r : Request} {a : Answer} {ahead lexeme rest passed : List Char}

/-- The answer is that there is nothing, and the cursor stays. -/
def Declines (s : Session) (r : Request) : Prop :=
  ∃ trail, s.perform r = some (.nothing, { s with trail })

/-- The lexeme is passed and nothing else changes. -/
def Takes (s : Session) (r : Request) (lexeme : List Char) (a : Answer) : Prop :=
  s.perform r = some (a, { s with offset := s.offset + byteSize lexeme })

theorem Takes.not_declines (h : s.Takes r lexeme a) (ha : a ≠ .nothing) : ¬ s.Declines r := by
  rintro ⟨trail, hperform⟩
  rw [Takes, hperform] at h
  exact ha (congrArg Prod.fst (Option.some.inj h)).symm

theorem read_found {t : Terminal α} {b : α} (answer : Option α → Answer)
    (hahead : dropBytes? s.offset s.text = some ahead) (h : t ahead = .found b lexeme rest) :
    s.read t answer =
      some (answer (some b), { s with offset := s.offset + byteSize lexeme }) := by
  simp [Session.read, hahead, Cursor.read, h]

theorem read_missing {t : Terminal α} (answer : Option α → Answer)
    (hahead : dropBytes? s.offset s.text = some ahead) (h : t ahead = .missing passed) :
    ∃ trail, s.read t answer = some (answer none, { s with trail }) := by
  refine ⟨s.trail.fail (s.offset + byteSize passed), ?_⟩
  simp [Session.read, hahead, Cursor.read, h]

theorem perform_number (hahead : dropBytes? s.offset s.text = some ahead) :
    (s.Declines .number ↔ ∀ l, ¬ Begins numeral ahead l) ∧
      (s.Declines .number ∨ ∃ l, Longest numeral ahead l ∧
        s.Takes .number l (.numeral (numeralOf l))) := by
  cases h : Terminal.number ahead with
  | missing passed =>
    have hdeclines : s.Declines .number := read_missing numeralOrNothing hahead h
    exact ⟨iff_of_true hdeclines (number_missing h), Or.inl hdeclines⟩
  | found b lexeme rest =>
    have hlongest := number_longest h
    have htakes : s.Takes .number lexeme (.numeral (numeralOf lexeme)) :=
      (number_found h).2 ▸ read_found numeralOrNothing hahead h
    refine ⟨iff_of_false (htakes.not_declines (by simp)) ?_, Or.inr ⟨lexeme, hlongest, htakes⟩⟩
    exact fun hnone => hnone lexeme hlongest.toBegins

theorem perform_identifier (hahead : dropBytes? s.offset s.text = some ahead) :
    (s.Declines .identifier ↔ (∀ l, ¬ Begins letter ahead l) ∨
        ∃ l, Longest name ahead l ∧ l ∈ negation.matches') ∧
      (s.Declines .identifier ∨ ∃ l, Longest name ahead l ∧
        s.Takes .identifier l (.text (String.ofList l))) := by
  cases h : Terminal.identifier ahead with
  | missing passed =>
    have hdeclines : s.Declines .identifier := read_missing textOrNothing hahead h
    exact ⟨iff_of_true hdeclines (identifier_missing h), Or.inl hdeclines⟩
  | found b lexeme rest =>
    obtain ⟨hlongest, hnot, rfl⟩ := identifier_found h
    have htakes : s.Takes .identifier lexeme (.text (String.ofList lexeme)) :=
      read_found textOrNothing hahead h
    refine ⟨iff_of_false (htakes.not_declines (by simp)) ?_, Or.inr ⟨lexeme, hlongest, htakes⟩⟩
    rintro (hnone | ⟨l, hl, hmem⟩)
    · obtain ⟨c, cs, rfl, hc, -⟩ := mem_name.mp hlongest.matched
      obtain ⟨tail, rfl⟩ := hlongest.start
      exact hnone [c] (begins_letter hc _)
    · exact hnot (hlongest.unique hl ▸ hmem)

/-- Wherever the cursor stands in a text, a number and a name are the longest beginnings of what is
ahead that their expressions match. There is no number if no beginning matches, and no name if no
letter comes first or the longest name is the word `not`. -/
theorem perform_longest (before ahead : List Char) (trail : Trail) :
    let s : Session := ⟨before ++ ahead, byteSize before, trail⟩
    (s.Declines .number ↔ ∀ l, ¬ Begins numeral ahead l) ∧
      (s.Declines .number ∨ ∃ l, Longest numeral ahead l ∧
        s.Takes .number l (.numeral (if '.' ∈ l then .decimal l else .integer l))) ∧
      (s.Declines .identifier ↔ (∀ l, ¬ Begins letter ahead l) ∨
        ∃ l, Longest name ahead l ∧ l ∈ negation.matches') ∧
      (s.Declines .identifier ∨ ∃ l, Longest name ahead l ∧
        s.Takes .identifier l (.text (String.ofList l))) := by
  intro s
  have hahead : dropBytes? s.offset s.text = some ahead := dropBytes?_append before ahead
  obtain ⟨hnone, hsome⟩ := perform_number hahead
  exact ⟨hnone, hsome, perform_identifier hahead⟩

end Session

end FilterQuery.Scanner
