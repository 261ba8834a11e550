import FilterQuery.Proofs.Leaves

/-!
Operators in canonical text. Where an operator is spelled, a slot finds it if the slot lists the
spelling and nothing before it can be found there, and the slot fails if none of its spellings can.
Which is the case is a matter of comparing spellings, so that it can be decided once for each slot.
-/
namespace FilterQuery

namespace Operator

def logics : List Operator := [and, or]

def tests : List Operator := [isNull, isNotNull, isTrue, isNotTrue, isFalse, isNotFalse]

def ranges : List Operator := [between, notBetween]

theorem mem_logics {op : Operator} (h : op.isLogic = true) : op ∈ logics := by
  cases op <;> simp_all [isLogic, logics]

theorem mem_tests {op : Operator} (h : op.isPredicate = true) : op ∈ tests := by
  cases op <;> simp_all [isPredicate, tests]

theorem mem_ranges {op : Operator} (h : op.isRange = true) : op ∈ ranges := by
  cases op <;> simp_all [isRange, ranges]

/-- The words of the code. -/
def words : Operator → List String
  | notLike => ["not", "like"]
  | notOneOf => ["not", "in"]
  | notBetween => ["not", "between"]
  | isNull => ["is", "null"]
  | isNotNull => ["is", "not", "null"]
  | isTrue => ["is", "true"]
  | isNotTrue => ["is", "not", "true"]
  | isFalse => ["is", "false"]
  | isNotFalse => ["is", "not", "false"]
  | op => [op.code]

/-- How the operator is spelled in canonical text. -/
def spelling (style : Style) (op : Operator) : Grammar.Spelling :=
  if style = .symbol ∧ op.symbol ≠ op.code then .symbol op.symbol else .phrase op.words

end Operator

namespace Grammar

open Scanner Result

variable {room : Room} {cs rest tail : List Char}

/-! ## Spellings -/

namespace Spelling

def isSymbolChar (c : Char) : Bool :=
  isFirm c && !enders.contains c && !Terminal.isIdentifierChar c

def isWord (w : String) : Bool := !w.toList.isEmpty && w.toList.all Terminal.isIdentifierChar

/-- A symbol has neither characters of names nor those that end a token or begin a gap, and a
phrase has words. -/
def isRegular : Spelling → Bool
  | symbol text => !text.toList.isEmpty && text.toList.all isSymbolChar
  | phrase words => !words.isEmpty && words.all isWord

/-- Somewhere the words differ, after words that are the same. -/
def clash : List String → List String → Bool
  | v :: vs, w :: ws =>
    v.toList.map Char.toLower != w.toList.map Char.toLower || v == w && clash vs ws
  | _, _ => false

/-- The first spelling is not found where the second one stands. -/
def misses : Spelling → Spelling → Bool
  | symbol t, s => !t.toList.isPrefixOf s.text
  | phrase _, symbol _ => true
  | phrase vs, phrase ws => clash vs ws

end Spelling

def Slot.misses (slot : Slot) (s : Spelling) : Bool := slot.all (·.misses s)

/-- The slot lists the spelling, and nothing before it is found where the spelling stands. -/
def Slot.finds : Slot → Spelling → Bool
  | [], _ => false
  | t :: slot, s => t == s || t.misses s && Slot.finds slot s

/-! ## Words and phrases -/

theorem Reads.someGap_blank (cs : List Char) :
    Reads room Peg.someGap (' ' :: cs) (matched () (ahead cs)) :=
  .seq (.choiceLeft (.char rfl)) (.gap cs)

section

open Spelling

variable {w : String} {ws : List String}

theorem solid_word (hw : isWord w = true) : Solid w.toList := by
  obtain ⟨c, cs, hletters, hc⟩ :
      ∃ c cs, w.toList = c :: cs ∧ Terminal.isIdentifierChar c = true := by
    cases hletters : w.toList with
    | nil => simp [isWord, hletters] at hw
    | cons c cs => exact ⟨c, cs, rfl, by simp_all [isWord]⟩
  rw [hletters]
  exact solid_firm (isFirm_of Terminal.isIdentifierChar (by decide) hc) cs

theorem solid_words (hw : isWord w = true) : Solid (joinWords (w :: ws)) := by
  cases ws with
  | nil => exact solid_word hw
  | cons v ws => exact (solid_word hw).append (' ' :: joinWords (v :: ws))

theorem Reads.someGap_words (hw : isWord w = true) :
    Reads room Peg.someGap (' ' :: (joinWords (w :: ws) ++ tail))
      (matched () (joinWords (w :: ws) ++ tail)) := by
  have hgap : Reads room Peg.someGap (' ' :: (joinWords (w :: ws) ++ tail)) _ := .someGap_blank _
  rwa [solid_words hw] at hgap

/-- The first word ends where a blank or the tail comes. -/
theorem takeWhile_words (hw : isWord w = true) (htail : EndsToken tail) :
    (joinWords (w :: ws) ++ tail).takeWhile Terminal.isIdentifierChar = w.toList := by
  have hletters : w.toList.all Terminal.isIdentifierChar = true := by simp_all [isWord]
  cases ws with
  | nil => exact takeWhile_word hletters htail.not_identifierChar
  | cons v ws =>
    have hjoin : joinWords (w :: v :: ws) = w.toList ++ ' ' :: joinWords (v :: ws) := rfl
    rw [hjoin, List.append_assoc]
    exact takeWhile_word hletters rfl

theorem Reads.phrase (hws : ∀ u ∈ w :: ws, isWord u = true) (htail : EndsToken tail) :
    Reads room (Peg.phrase (w :: ws)) (joinWords (w :: ws) ++ tail) (matched () tail) := by
  induction ws generalizing w with
  | nil => exact .keyword htail.not_identifierChar
  | cons v ws ih =>
    obtain ⟨-, hws⟩ := List.forall_mem_cons.mp hws
    obtain ⟨hv, -⟩ := List.forall_mem_cons.mp hws
    have hjoin : joinWords (w :: v :: ws) = w.toList ++ ' ' :: joinWords (v :: ws) := rfl
    rw [hjoin, List.append_assoc]
    exact .seq (.keyword rfl) (.seq (.someGap_words hv) (ih hws))

theorem Reads.phrase_failed {v : String} {vs : List String}
    (h : Reads room (Peg.keyword v) cs (halted .failed)) :
    Reads room (Peg.phrase (v :: vs)) cs (halted .failed) := by
  cases vs with
  | nil => exact h
  | cons v' vs => exact .seqLeft h

theorem Reads.phrase_clash {vs : List String} (hvs : ∀ v ∈ vs, isWord v = true)
    (hws : ∀ w ∈ ws, isWord w = true) (hclash : clash vs ws = true) (htail : EndsToken tail) :
    Reads room (Peg.phrase vs) (joinWords ws ++ tail) (halted .failed) := by
  induction vs generalizing ws with
  | nil => simp [clash] at hclash
  | cons v vs ih =>
    cases ws with
    | nil => simp [clash] at hclash
    | cons w ws =>
      obtain ⟨hv, hvs'⟩ := List.forall_mem_cons.mp hvs
      obtain ⟨hw, hws'⟩ := List.forall_mem_cons.mp hws
      simp only [clash, Bool.or_eq_true, bne_iff_ne, Bool.and_eq_true, beq_iff_eq] at hclash
      rcases hclash with hne | ⟨rfl, hclash⟩
      · refine .phrase_failed (.keyword_failed (by simp_all [isWord]) ?_)
        rw [takeWhile_words hw htail]
        exact hne.symm
      · obtain ⟨v', vs, rfl⟩ : ∃ v' vs', vs = v' :: vs' := by
          cases vs <;> simp_all [clash]
        obtain ⟨w', ws, rfl⟩ : ∃ w' ws', ws = w' :: ws' := by
          cases ws <;> simp_all [clash]
        obtain ⟨hw', -⟩ := List.forall_mem_cons.mp hws'
        have hjoin : joinWords (v :: w' :: ws) = v.toList ++ ' ' :: joinWords (w' :: ws) := rfl
        rw [hjoin, List.append_assoc]
        exact .seqRight (.keyword rfl) (.seqRight (.someGap_words hw') (ih hvs' hws' hclash))

end

/-! ## Slots -/

namespace Spelling

variable {s t : Spelling}

theorem solid_text (hs : s.isRegular = true) : Solid s.text := by
  match s, hs with
  | symbol text, hs =>
    obtain ⟨c, cs, htext⟩ : ∃ c cs, text.toList = c :: cs := by
      cases htext : text.toList <;> simp_all [isRegular]
    have hc : isFirm c = true := by simp_all [isRegular, isSymbolChar]
    rw [Spelling.text, htext]
    exact solid_firm hc cs
  | phrase (w :: ws), hs => exact solid_words (by simp_all [isRegular])

/-- A spelling is found where it stands. -/
theorem found (hs : s.isRegular = true) (htail : EndsToken tail) :
    Reads room s.peg (s.text ++ tail) (matched s.operator tail) := by
  match s, hs with
  | symbol text, hs => exact .map _ (.text text tail)
  | phrase (w :: ws), hs => exact .map _ (.phrase (by simp_all [isRegular]) htail)

/-- A symbol is longer than what stands there only by characters that end no token. -/
theorem symbol_failed {text : String} {cs : List Char} (hs : (symbol text).isRegular = true)
    (hmisses : ¬ text.toList <+: cs) (htail : EndsToken tail) :
    Reads room (Peg.text text) (cs ++ tail) (halted .failed) := by
  cases hread : Terminal.literal text (cs ++ tail) with
  | missing passed => exact (literal_obeys text).missing hread
  | found a lexeme rest =>
    simp only [Terminal.literal] at hread
    split at hread
    · next l r hstrip =>
      have hprefix : text.toList <+: cs ++ tail := ⟨r, stripBy_exact hstrip⟩
      rcases List.prefix_or_prefix_of_prefix hprefix (List.prefix_append cs tail) with h | ⟨ds, h⟩
      · exact absurd h hmisses
      · cases ds with
        | nil => exact absurd (by simp [← h]) hmisses
        | cons d ds =>
          have hchar : isSymbolChar d = true := by
            simp only [isRegular, Bool.and_eq_true, List.all_eq_true] at hs
            exact hs.2 d (by simp [← h])
          rw [← h, List.prefix_append_right_inj] at hprefix
          obtain ⟨rest, rfl⟩ := hprefix
          have hender : d ∈ enders := htail d rfl
          simp [isSymbolChar, hender] at hchar
    · simp at hread

/-- A phrase is not found where no name begins. -/
theorem phrase_failed {w : String} {ws : List String} {cs : List Char}
    (hs : (phrase (w :: ws)).isRegular = true)
    (hcs : Terminal.startsWith Terminal.isIdentifierChar cs = false) :
    Reads room (Peg.phrase (w :: ws)) cs (halted .failed) := by
  have hw : isWord w = true := by simp_all [isRegular]
  refine .phrase_failed (.keyword_failed (by simp_all [isWord]) ?_)
  rw [(takeWhile_none hcs).1]
  intro hnil
  simp_all [isWord]

theorem missed (hs : s.isRegular = true) (ht : t.isRegular = true) (h : s.misses t = true)
    (htail : EndsToken tail) : Reads room s.peg (t.text ++ tail) (halted .failed) := by
  cases s with
  | symbol text =>
    have hprefix : ¬ text.toList <+: t.text := by
      intro hprefix
      simp [misses, List.isPrefixOf_iff_prefix.mpr hprefix] at h
    exact .seqLeft (symbol_failed hs hprefix htail)
  | phrase vs =>
    cases t with
    | symbol text =>
      obtain ⟨v, vs, rfl⟩ : ∃ w ws, vs = w :: ws := by
        cases vs <;> simp_all [isRegular]
      obtain ⟨c, cs, htext⟩ : ∃ c cs, text.toList = c :: cs := by
        cases htext : text.toList <;> simp_all [isRegular]
      refine .seqLeft (phrase_failed hs ?_)
      have hc : Terminal.isIdentifierChar c = false := by simp_all [isRegular, isSymbolChar]
      rw [Spelling.text, htext]
      exact hc
    | phrase ws =>
      exact .seqLeft (.phrase_clash (by simp_all [isRegular]) (by simp_all [isRegular]) h htail)

/-- No spelling is found where a token ends. -/
theorem missed_ender (hs : s.isRegular = true) (htail : EndsToken tail) :
    Reads room s.peg tail (halted .failed) := by
  match s, hs with
  | symbol text, hs =>
    have hne : text.toList ≠ [] := by simp_all [isRegular]
    have hprefix : ¬ text.toList <+: [] := by simpa using hne
    exact .seqLeft (symbol_failed hs hprefix htail)
  | phrase (w :: ws), hs => exact .seqLeft (phrase_failed hs htail.not_identifierChar)

end Spelling

theorem Reads.firstOf_skip {α : Type} {p : Peg α} {ps : List (Peg α)} {o : Result α}
    (hp : Reads room p cs (halted .failed)) (hps : Reads room (Peg.firstOf ps) cs o) :
    Reads room (Peg.firstOf (p :: ps)) cs o := by
  cases ps with
  | nil =>
    cases hps
    exact hp
  | cons q qs => exact .choiceRight hp hps

theorem Reads.firstOf_take {α : Type} {p : Peg α} {ps : List (Peg α)} {a : α}
    (hp : Reads room p cs (matched a rest)) :
    Reads room (Peg.firstOf (p :: ps)) cs (matched a rest) := by
  cases ps with
  | nil => exact hp
  | cons q qs => exact .choiceLeft hp

/-- Symbols and words as they should be. -/
abbrev Slot.IsRegular (slot : Slot) : Prop := ∀ s ∈ slot, s.isRegular = true

namespace Slot

variable {slot : Slot} {s : Spelling}

theorem failed (hall : ∀ t ∈ slot, Reads room t.peg cs (halted .failed)) :
    Reads room slot.peg cs (halted .failed) := by
  induction slot with
  | nil => exact .never _ _
  | cons t slot ih =>
    obtain ⟨ht, hall⟩ := List.forall_mem_cons.mp hall
    exact .firstOf_skip ht (ih hall)

theorem missed (hslot : slot.IsRegular) (hs : s.isRegular = true) (h : slot.misses s = true)
    (htail : EndsToken tail) : Reads room slot.peg (s.text ++ tail) (halted .failed) :=
  failed fun t ht => Spelling.missed (hslot t ht) hs (List.all_eq_true.mp h t ht) htail

theorem missed_ender (hslot : slot.IsRegular) (htail : EndsToken tail) :
    Reads room slot.peg tail (halted .failed) :=
  failed fun t ht => Spelling.missed_ender (hslot t ht) htail

theorem found (hslot : slot.IsRegular) (hs : s.isRegular = true) (h : slot.finds s = true)
    (htail : EndsToken tail) : Reads room slot.peg (s.text ++ tail) (matched s.operator tail) := by
  induction slot with
  | nil => simp [finds] at h
  | cons t slot ih =>
    obtain ⟨ht, hslot⟩ := List.forall_mem_cons.mp hslot
    simp only [finds, Bool.or_eq_true, beq_iff_eq, Bool.and_eq_true] at h
    rcases h with rfl | ⟨hmisses, hfinds⟩
    · exact .firstOf_take (Spelling.found ht htail)
    · exact .firstOf_skip (Spelling.missed ht hs hmisses htail) (ih hslot hfinds)

end Slot

/-! ## Operators -/

def styles : List Style := [.word, .symbol]

theorem mem_styles (style : Style) : style ∈ styles := by
  cases style <;> decide

theorem phrase_known : ∀ op ∈ Operator.known, (Spelling.phrase op.words).isRegular = true ∧
    (Spelling.phrase op.words).isFolded = true ∧ joinWords op.words = op.code.toList := by
  decide

theorem symbol_known : ∀ op ∈ Operator.known, op.symbol ≠ op.code →
    (Spelling.symbol op.symbol).isRegular = true ∧ (Spelling.symbol op.symbol).isFolded = true ∧
      Operator.ofFolded op.symbol = op := by
  decide

/-- Both the code and the symbol of an operator stand for it. -/
theorem spelling_known {op : Operator} (hop : op ∈ Operator.known) (style : Style) :
    (op.spelling style).isRegular = true ∧ (op.spelling style).text = op.spell style ∧
      (op.spelling style).operator = op := by
  by_cases hsymbol : style = .symbol ∧ op.symbol ≠ op.code
  · obtain ⟨rfl, hne⟩ := hsymbol
    obtain ⟨hregular, hfolded, hof⟩ := symbol_known op hop hne
    have hspelling : op.spelling .symbol = .symbol op.symbol := if_pos ⟨rfl, hne⟩
    rw [hspelling]
    refine ⟨hregular, rfl, ?_⟩
    rw [Spelling.operator_of_isFolded hfolded, Spelling.text, String.ofList_toList, hof]
  · obtain ⟨hregular, hfolded, hwords⟩ := phrase_known op hop
    have hspelling : op.spelling style = .phrase op.words := if_neg hsymbol
    rw [hspelling]
    refine ⟨hregular, ?_, ?_⟩
    · rw [Spelling.text, hwords]
      cases style with
      | word => rfl
      | symbol => simp_all [Operator.spell]
    · rw [Spelling.operator_of_isFolded hfolded, Spelling.text, hwords, String.ofList_toList,
        Operator.ofFolded_code hop]

/-- The slot reads the operators as they are spelled in either style. -/
abbrev Slot.Finds (slot : Slot) (ops : List Operator) : Prop :=
  ∀ op ∈ ops, op ∈ Operator.known ∧ ∀ style ∈ styles, slot.finds (op.spelling style) = true

/-- The slot reads none of the operators in either style. -/
abbrev Slot.Misses (slot : Slot) (ops : List Operator) : Prop :=
  ∀ op ∈ ops, op ∈ Operator.known ∧ ∀ style ∈ styles, slot.misses (op.spelling style) = true

/-- The operators that can follow a node of the level in canonical text. -/
def followers : Binding → List Operator
  | .logic => []
  | .negation | .comparison => Operator.logics
  | .membership => Operator.comparisons ++ Operator.logics
  | .predicate => Operator.memberships ++ (Operator.comparisons ++ Operator.logics)
  | .between =>
    Operator.tests ++ (Operator.memberships ++ (Operator.comparisons ++ Operator.logics))
  | .primary =>
    Operator.ranges ++
      (Operator.tests ++ (Operator.memberships ++ (Operator.comparisons ++ Operator.logics)))

theorem slots_find :
    ∀ entry ∈ [(Slot.compare, Operator.comparisons), (.logic, Operator.logics),
        (.oneOf, Operator.memberships), (.between, Operator.ranges), (.test, Operator.tests)],
      entry.1.IsRegular ∧ entry.1.Finds entry.2 := by
  decide

/-- What is left for a looser level is nothing that a tighter one reads. -/
theorem slots_miss :
    ∀ entry ∈ [(Slot.logic, followers .logic), (.compare, followers .comparison),
        (.oneOf, followers .membership), (.test, followers .predicate),
        (.between, followers .between)],
      entry.1.IsRegular ∧ entry.1.Misses entry.2 := by
  decide

/-- The text ends, or closes or continues a list. -/
def Closes (tail : List Char) : Prop := ∀ c ∈ tail.head?, c = ')' ∨ c = ','

/-- The text closes, or one of the operators is spelled next. -/
def Follows (ops : List Operator) (tail : List Char) : Prop :=
  Closes tail ∨ ∃ op ∈ ops, ∃ style rest, EndsToken rest ∧ tail = ' ' :: (op.spell style ++ rest)

theorem Closes.endsToken (h : Closes tail) : EndsToken tail := by
  intro c hc
  rcases h c hc with rfl | rfl <;> decide

theorem Closes.splitGap (h : Closes tail) : Terminal.splitGap false tail = ([], tail) := by
  cases tail with
  | nil => rfl
  | cons c cs =>
    rcases h c rfl with rfl | rfl <;>
      exact splitGap_solid (by decide) (by decide) (by decide) cs

theorem Closes.ahead (h : Closes tail) : ahead tail = tail := by
  rw [Grammar.ahead, h.splitGap]

theorem ahead_spell {op : Operator} (hop : op ∈ Operator.known) (style : Style)
    (rest : List Char) : ahead (' ' :: (op.spell style ++ rest)) = op.spell style ++ rest := by
  obtain ⟨hregular, htext, -⟩ := spelling_known hop style
  rw [ahead_blank, ← htext, Spelling.solid_text hregular]

namespace Follows

variable {ops wider : List Operator}

theorem endsToken (h : Follows ops tail) : EndsToken tail := by
  rcases h with hclose | ⟨op, -, style, rest, -, rfl⟩
  · exact hclose.endsToken
  · exact endsToken_cons (by decide)

theorem operator {op : Operator} (hop : op ∈ ops) (style : Style) (hrest : EndsToken rest) :
    Follows ops (' ' :: (op.spell style ++ rest)) :=
  Or.inr ⟨op, hop, style, rest, hrest, rfl⟩

theorem mono (h : Follows ops tail) (hsub : ops ⊆ wider) : Follows wider tail := by
  rcases h with hclose | ⟨op, hop, hspelled⟩
  · exact Or.inl hclose
  · exact Or.inr ⟨op, hsub hop, hspelled⟩

end Follows

namespace Slot

variable {slot : Slot} {ops : List Operator} {op : Operator}

/-- A slot that misses what follows fails there. -/
theorem stops (hslot : slot.IsRegular ∧ slot.Misses ops) (h : Follows ops tail) :
    Reads room slot.peg (ahead tail) (halted .failed) := by
  rcases h with hclose | ⟨op, hop, style, rest, hrest, rfl⟩
  · rw [hclose.ahead]
    exact missed_ender hslot.1 hclose.endsToken
  · obtain ⟨hknown, hmisses⟩ := hslot.2 op hop
    obtain ⟨hregular, htext, -⟩ := spelling_known hknown style
    rw [ahead_spell hknown, ← htext]
    exact missed hslot.1 hregular (hmisses style (mem_styles style)) hrest

theorem reads (hslot : slot.IsRegular ∧ slot.Finds ops) (hop : op ∈ ops) (style : Style)
    (htail : EndsToken tail) :
    Reads room slot.peg (ahead (' ' :: (op.spell style ++ tail))) (matched op tail) := by
  obtain ⟨hknown, hfinds⟩ := hslot.2 op hop
  obtain ⟨hregular, htext, hoperator⟩ := spelling_known hknown style
  have hfound : Reads room slot.peg ((op.spelling style).text ++ tail) _ :=
    found hslot.1 hregular (hfinds style (mem_styles style)) htail
  rw [hoperator, htext] at hfound
  rwa [ahead_spell hknown]

end Slot

theorem Reads.someGap_failed (h : Terminal.splitGap false cs = ([], cs)) :
    Reads room Peg.someGap cs (halted .failed) := by
  rcases Reads.gapStep room cs with ⟨-, hfailed⟩ | ⟨mid, hnonempty, -⟩
  · exact .seqLeft hfailed
  · simp [h] at hnonempty

/-- A test needs a gap before it, and what follows a closing character is none. -/
theorem Reads.test_stops (h : Follows (followers .predicate) tail) :
    Reads room (.call .test) tail (halted .failed) := by
  have hslot := slots_miss (Slot.test, followers .predicate) (by simp)
  have hstop : Reads room Slot.test.peg (ahead tail) (halted .failed) := Slot.stops hslot h
  rcases h with hclose | ⟨op, -, style, rest, -, rfl⟩
  · exact .call (.seqLeft (.someGap_failed hclose.splitGap))
  · rw [ahead_blank] at hstop
    exact .call (.seqRight (.someGap_blank _) (.seqLeft hstop))

/-- A test is read with the gaps on both sides. -/
theorem Reads.test {op : Operator} (hop : op ∈ Operator.tests) (style : Style)
    (htail : EndsToken tail) :
    Reads room (.call .test) (' ' :: (op.spell style ++ tail)) (matched op (ahead tail)) := by
  have hslot := slots_find (Slot.test, Operator.tests) (by simp)
  have hread : Reads room Slot.test.peg (ahead (' ' :: (op.spell style ++ tail)))
      (matched op tail) := Slot.reads hslot hop style htail
  rw [ahead_blank] at hread
  exact .call (.seq (.someGap_blank _) (.seq hread (.gap tail)))

/-- An operator between blanks is read with both of them. -/
theorem Reads.spacedOperator {slot : Slot} {ops : List Operator} {op : Operator} {style : Style}
    (hslot : slot.IsRegular ∧ slot.Finds ops) (hop : op ∈ ops)
    (hcs : ahead cs = ahead (' ' :: (op.spell style ++ ' ' :: rest))) (hrest : ahead rest = rest) :
    Reads room (Peg.before Peg.gap (Peg.followedBy slot.peg Peg.gap)) cs (matched op rest) := by
  have hblank : EndsToken (' ' :: rest) := endsToken_cons (by decide)
  have hgap : Reads room Peg.gap (' ' :: rest) (matched () (ahead (' ' :: rest))) := .gap _
  rw [ahead_blank, hrest] at hgap
  refine .pastGap ?_
  rw [hcs]
  exact .seq (Slot.reads hslot hop style hblank) hgap

end Grammar

end FilterQuery
