import FilterQuery.Proofs.Conformance
import FilterQuery.Proofs.Standing

/-!
Slots take the longest spelling. The spellings of a slot are in such an order that the first one to
be found is longer than any other that stands at the same place, so that ordered choice, which
takes the first, takes the longest.
-/
namespace FilterQuery.Scanner

/-- What a terminal found, if anything. -/
def Reading.lexeme? {α : Type} : Reading α → Option (List Char)
  | .found _ lexeme _ => some lexeme
  | .missing _ => none

end FilterQuery.Scanner

namespace FilterQuery.Grammar

open Scanner Terminal

variable {cs raw raw' lexeme lexeme' rest rest' : List Char}

namespace Spelling

variable {s t : Spelling}

/-- Words that are read from one text are the same letters up to case. -/
theorem sameLetters_of_found {w v : String} (hw : isWord w = true) (hv : isWord v = true)
    (h : keyword w cs = .found raw lexeme rest) (h' : keyword v cs = .found raw' lexeme' rest') :
    w.toList.map Char.toLower = v.toList.map Char.toLower := by
  obtain ⟨-, hsplit, hletters, hend⟩ := keyword_found_iff.mp h
  obtain ⟨-, hsplit', hletters', hend'⟩ := keyword_found_iff.mp h'
  have hrun := (takeWhile_run (isIdentifierChar_of_sameLetters hw hletters) hend).1
  have hrun' := (takeWhile_run (isIdentifierChar_of_sameLetters hv hletters') hend').1
  rw [hsplit] at hrun
  rw [hsplit'] at hrun'
  rw [← hletters, ← hletters', ← hrun, ← hrun']

/-- Of two phrases that clash only one is found. -/
theorem not_found_of_clash {ws vs : List String} (hws : ∀ w ∈ ws, isWord w = true)
    (hvs : ∀ v ∈ vs, isWord v = true) (hclash : clash ws vs = true)
    (h : Terminal.phrase ws cs = .found raw lexeme rest) :
    Terminal.phrase vs cs ≠ .found raw' lexeme' rest' := by
  intro h'
  induction ws generalizing vs cs raw lexeme rest raw' lexeme' rest' with
  | nil => simp [clash] at hclash
  | cons w ws ih =>
    cases vs with
    | nil => simp [clash] at hclash
    | cons v vs =>
      obtain ⟨hw, hothers⟩ := List.forall_mem_cons.mp hws
      obtain ⟨hv, hothers'⟩ := List.forall_mem_cons.mp hvs
      simp only [clash, Bool.or_eq_true, bne_iff_ne, Bool.and_eq_true, beq_iff_eq] at hclash
      rcases hclash with hne | ⟨rfl, hclash⟩
      · obtain ⟨_, _, _, hword⟩ := keyword_of_phrase_found h
        obtain ⟨_, _, _, hword'⟩ := keyword_of_phrase_found h'
        exact hne (sameLetters_of_found hw hv hword hword')
      · -- the same word and the same gap come first, so the others are read from one text
        cases ws with
        | nil => simp [clash] at hclash
        | cons u ws =>
          cases vs with
          | nil => simp [clash] at hclash
          | cons u' vs =>
            obtain ⟨_, mid, _, tail, _, _, hword, hgap, -, hlater, -⟩ :=
              phrase_cons_found_iff.mp h
            obtain ⟨_, mid', _, tail', _, _, hword', hgap', -, hlater', -⟩ :=
              phrase_cons_found_iff.mp h'
            have hmid : mid = mid' := by
              rw [hword] at hword'
              injection hword'
            have htail : tail = tail' := by
              rw [hmid, hgap'] at hgap
              exact (congrArg Prod.snd hgap).symm
            exact ih hothers hothers' hclash hlater (htail ▸ hlater')

/-- A symbol and a phrase do not stand at one place. -/
theorem not_stands_both {text : String} {words : List String}
    (hsymbol : (symbol text).isRegular = true) (hphrase : (phrase words).isRegular = true)
    (h : (symbol text).Stands lexeme rest) (h' : (phrase words).Stands lexeme' rest') :
    lexeme ++ rest ≠ lexeme' ++ rest' := by
  intro heq
  obtain ⟨w, ws, rfl⟩ : ∃ w ws, words = w :: ws := by
    cases words <;> simp_all [isRegular]
  obtain ⟨c, cs, rfl, hc⟩ := h'.1.head (by simp_all [isRegular])
  obtain ⟨d, ds, htext⟩ : ∃ d ds, text.toList = d :: ds := by
    cases htext : text.toList <;> simp_all [isRegular]
  have hd : isIdentifierChar d = false := by simp_all [isRegular, isSymbolChar]
  have hlexeme : lexeme = d :: ds := h.trans htext
  rw [hlexeme] at heq
  obtain ⟨rfl, -⟩ := List.cons.inj heq
  rw [hc] at hd
  cases hd

/-- Where both are found, a spelling that misses another one is the longer of the two. -/
theorem lt_of_misses (hs : s.isRegular = true) (ht : t.isRegular = true)
    (hmisses : s.misses t = true) (h : s.terminal cs = .found raw lexeme rest)
    (h' : t.terminal cs = .found raw' lexeme' rest') : lexeme'.length < lexeme.length := by
  obtain ⟨hsplit, hstands⟩ := (found_iff hs).mp ⟨raw, h⟩
  obtain ⟨hsplit', hstands'⟩ := (found_iff ht).mp ⟨raw', h'⟩
  cases s with
  | symbol text =>
    cases t with
    | symbol text' =>
      have hprefix : ¬ lexeme <+: lexeme' := by
        rw [hstands, hstands']
        intro hprefix
        simp [misses, Spelling.text, List.isPrefixOf_iff_prefix.mpr hprefix] at hmisses
      by_contra hle
      exact hprefix (List.prefix_of_prefix_length_le ⟨rest, hsplit⟩ ⟨rest', hsplit'⟩ (by omega))
    | phrase words =>
      exact absurd (hsplit.trans hsplit'.symm) (not_stands_both hs ht hstands hstands')
  | phrase words =>
    cases t with
    | symbol text =>
      exact absurd (hsplit'.trans hsplit.symm) (not_stands_both ht hs hstands' hstands)
    | phrase words' =>
      have hwords : ∀ w ∈ words, isWord w = true := by simp_all [isRegular]
      have hwords' : ∀ w ∈ words', isWord w = true := by simp_all [isRegular]
      exact absurd h' (not_found_of_clash hwords hwords' hmisses h)

end Spelling

/-! ## Runs -/

namespace State

/-- Only the trail of failures is another one. -/
def withTrail (s : State) (trail : Trail) : State := { s with cursor := { s.cursor with trail } }

/-- The lexeme is passed and the operator lies on the stack; besides the trail nothing else has
changed. -/
def taking (s : State) (trail : Trail) (op : Operator) (lexeme rest : List Char) : State :=
  { s with
    cursor := ⟨s.cursor.offset + Text.byteSize lexeme, rest, trail⟩
    assembly := { s.assembly with stack := .node (.operation op) :: s.assembly.stack } }

end State

namespace Slot

variable {s : State} {t u : Spelling} {slot : Slot}

/-- The rule of one spelling. -/
def rule (t : Spelling) : Rule :=
  Rule.capture t.terminal fun raw => .operation (String.ofList raw)

theorem rule_found (ht : t.isPlain) (h : t.terminal s.cursor.rest = .found raw lexeme rest) :
    (rule t).run s = (true, s.taking s.cursor.trail t.operator lexeme rest) := by
  have hterminal : (t.terminal.map fun raw => some (.operation (String.ofList raw)))
      s.cursor.rest = Reading.found (some (Action.operation (String.ofList raw))) lexeme rest := by
    rw [Terminal.map, h]
  rw [rule, Rule.capture, Rule.run, Step.read, Cursor.read, hterminal]
  simp [State.perform, State.taking, Assembly.perform, Assembly.effect, Assembly.apply,
    Assembly.eventsOf, Effect.push, Effect.events, Operand.note, ofSpelling_found ht h]

theorem rule_missing {passed : List Char} (h : t.terminal s.cursor.rest = .missing passed) :
    ∃ trail, (rule t).run s = (false, s.withTrail trail) := by
  have hterminal : (t.terminal.map fun raw => some (.operation (String.ofList raw)))
      s.cursor.rest = (Reading.missing passed : Reading (Option Action)) := by
    rw [Terminal.map, h]
  rw [rule, Rule.capture, Rule.run, Step.read, Cursor.read, hterminal]
  exact ⟨_, rfl⟩

theorem operator_cons_run (t : Spelling) (slot : Slot) (s : State) :
    (Rule.operator (t :: slot)).run s = (Rule.orElse (rule t) (Rule.operator slot)).run s := by
  cases slot with
  | nil =>
    change (rule t).run s = (Rule.orElse (rule t) .never).run s
    rw [Rule.run]
    split
    · next hrun => exact hrun
    · next hrun => exact hrun
  | cons u slot => rfl

/-- In a slot whose order is right, the spelling that is found first is the longest one. -/
theorem operator_run (hregular : slot.IsRegular) (hplain : ∀ t ∈ slot, t.isPlain)
    (horder : slot.Pairwise fun t u => t.misses u = true) (s : State) :
    ((∀ t ∈ slot, ∀ raw lexeme rest, t.terminal s.cursor.rest ≠ .found raw lexeme rest) ∧
      ∃ trail, (Rule.operator slot).run s = (false, s.withTrail trail)) ∨
    ∃ t ∈ slot, ∃ raw lexeme rest trail, t.terminal s.cursor.rest = .found raw lexeme rest ∧
      (∀ u ∈ slot, ∀ raw' lexeme' rest', u.terminal s.cursor.rest = .found raw' lexeme' rest' →
        (u = t ∧ lexeme' = lexeme ∧ rest' = rest) ∨ lexeme'.length < lexeme.length) ∧
      (Rule.operator slot).run s = (true, s.taking trail t.operator lexeme rest) := by
  induction slot generalizing s with
  | nil => exact Or.inl ⟨by simp, s.cursor.trail, rfl⟩
  | cons t slot ih =>
    obtain ⟨ht, hregular⟩ := List.forall_mem_cons.mp hregular
    obtain ⟨htplain, hplain⟩ := List.forall_mem_cons.mp hplain
    obtain ⟨hbefore, horder⟩ := List.pairwise_cons.mp horder
    rw [operator_cons_run, Rule.run]
    cases hread : t.terminal s.cursor.rest with
    | found raw lexeme rest =>
      refine Or.inr ⟨t, List.mem_cons_self .., raw, lexeme, rest, s.cursor.trail, hread, ?_, ?_⟩
      · intro u hu raw' lexeme' rest' hread'
        rcases List.mem_cons.mp hu with rfl | hu
        · rw [hread] at hread'
          cases hread'
          exact Or.inl ⟨rfl, rfl, rfl⟩
        · exact Or.inr (Spelling.lt_of_misses ht (hregular u hu) (hbefore u hu) hread hread')
      · rw [rule_found htplain hread]
    | missing passed =>
      obtain ⟨trail, hrun⟩ := rule_missing hread
      rw [hrun]
      rcases ih hregular hplain horder (s.withTrail trail) with
        ⟨hnone, trail', hfail⟩ | ⟨u, hu, raw, lexeme, rest, trail', hfound, hlongest, hmatch⟩
      · refine Or.inl ⟨List.forall_mem_cons.mpr ⟨fun _ _ _ h => ?_, hnone⟩, trail', hfail⟩
        rw [hread] at h
        cases h
      · refine Or.inr ⟨u, List.mem_cons_of_mem t hu, raw, lexeme, rest, trail', hfound, ?_, hmatch⟩
        refine List.forall_mem_cons.mpr ⟨fun _ _ _ h => ?_, hlongest⟩
        rw [hread] at h
        cases h

/-! ## Slots -/

def slots : List Slot := [.compare, .logic, .oneOf, .between, .test]

/-- The operators that the spellings of the slots stand for. -/
def meanings : List (Spelling × Operator) :=
  [(.symbol ">=", .gte), (.symbol "<=", .lte), (.symbol "==", .eq), (.symbol "<>", .neq),
    (.symbol "!=", .neq), (.symbol "<", .lt), (.symbol "=", .eq), (.symbol ">", .gt),
    (.phrase ["gte"], .gte), (.phrase ["gt"], .gt), (.phrase ["lte"], .lte),
    (.phrase ["lt"], .lt), (.phrase ["neq"], .neq), (.phrase ["eq"], .eq),
    (.phrase ["like"], .like), (.phrase ["not", "like"], .notLike), (.phrase ["and"], .and),
    (.phrase ["or"], .or), (.symbol "&&", .and), (.symbol "||", .or), (.phrase ["in"], .oneOf),
    (.phrase ["not", "in"], .notOneOf), (.phrase ["between"], .between),
    (.phrase ["not", "between"], .notBetween), (.phrase ["isnull"], .isNull),
    (.phrase ["is", "null"], .isNull), (.phrase ["notnull"], .isNotNull),
    (.phrase ["not", "null"], .isNotNull), (.phrase ["is", "not", "null"], .isNotNull),
    (.phrase ["is", "true"], .isTrue), (.phrase ["is", "not", "true"], .isNotTrue),
    (.phrase ["is", "false"], .isFalse), (.phrase ["is", "not", "false"], .isNotFalse)]

/-- A spelling of the slot stands at the start of the text. -/
structure Offers (slot : Slot) (cs : List Char) (t : Spelling) (lexeme rest : List Char) :
    Prop where
  listed : t ∈ slot
  splits : lexeme ++ rest = cs
  stands : t.Stands lexeme rest

/-- No spelling of the slot that stands there is longer. -/
structure Longest (slot : Slot) (cs : List Char) (t : Spelling) (lexeme rest : List Char) :
    Prop extends slot.Offers cs t lexeme rest where
  longest : ∀ u lexeme' rest', slot.Offers cs u lexeme' rest' → lexeme'.length ≤ lexeme.length

/-- The order of each slot is right: what comes later is not longer where both stand. -/
theorem slots_ordered : ∀ slot ∈ slots,
    slot.IsRegular ∧ slot.Pairwise fun t u => t.misses u = true := by
  decide

theorem meanings_folded : ∀ slot ∈ slots, ∀ t ∈ slot,
    t.isFolded = true ∧ meanings.lookup t = some (.ofFolded (String.ofList t.text)) := by
  decide +kernel

theorem meanings_lookup (hslot : slot ∈ slots) (ht : t ∈ slot) :
    meanings.lookup t = some t.operator := by
  obtain ⟨hfolded, hmeaning⟩ := meanings_folded slot hslot t ht
  rw [hmeaning, Spelling.operator_of_isFolded hfolded]

theorem offers_iff (hregular : slot.IsRegular) : slot.Offers cs t lexeme rest ↔
    t ∈ slot ∧ ∃ raw, t.terminal cs = .found raw lexeme rest := by
  constructor
  · rintro ⟨ht, hsplit, hstands⟩
    exact ⟨ht, (Spelling.found_iff (hregular t ht)).mpr ⟨hsplit, hstands⟩⟩
  · rintro ⟨ht, hfound⟩
    obtain ⟨hsplit, hstands⟩ := (Spelling.found_iff (hregular t ht)).mp hfound
    exact ⟨ht, hsplit, hstands⟩

theorem Offers.lexeme?_eq (hregular : slot.IsRegular) (h : slot.Offers cs t lexeme rest) :
    (t.terminal cs).lexeme? = some lexeme := by
  obtain ⟨-, raw, hfound⟩ := (offers_iff hregular).mp h
  rw [hfound, Reading.lexeme?]

/-- Which spelling is the longest can be computed. -/
theorem longest_of_lexemes (hregular : slot.IsRegular) (ht : t ∈ slot)
    (hfound : t.terminal cs = .found raw lexeme rest)
    (hall : ∀ u ∈ slot, ∀ lexeme' ∈ (u.terminal cs).lexeme?, lexeme'.length ≤ lexeme.length) :
    slot.Longest cs t lexeme rest where
  toOffers := (offers_iff hregular).mpr ⟨ht, raw, hfound⟩
  longest u lexeme' _ h := hall u h.listed lexeme' (h.lexeme?_eq hregular)

/-- A slot whose spellings stand at the cursor passes over the longest of them and puts its operator
on the stack; any other leaves the cursor and the stack as they are. -/
theorem operator_longest (hslot : slot ∈ slots) (s : State) :
    ((∀ t lexeme rest, ¬ slot.Offers s.cursor.rest t lexeme rest) →
      ∃ trail, (Rule.operator slot).run s = (false, s.withTrail trail)) ∧
    ((∃ t lexeme rest, slot.Offers s.cursor.rest t lexeme rest) →
      ∃ t lexeme rest, slot.Longest s.cursor.rest t lexeme rest) ∧
    ∀ t lexeme rest, slot.Longest s.cursor.rest t lexeme rest →
      ∃ op trail, meanings.lookup t = some op ∧
        (Rule.operator slot).run s = (true, s.taking trail op lexeme rest) := by
  obtain ⟨hregular, horder⟩ := slots_ordered slot hslot
  rcases operator_run hregular (slots_plain slot hslot) horder s with
    ⟨hnone, hfail⟩ | ⟨t, ht, raw, lexeme, rest, trail, hfound, hlongest, hmatch⟩
  · have hoffers : ∀ t lexeme rest, ¬ slot.Offers s.cursor.rest t lexeme rest := by
      intro t lexeme rest hoffer
      obtain ⟨ht, raw, hfound⟩ := (offers_iff hregular).mp hoffer
      exact hnone t ht raw lexeme rest hfound
    refine ⟨fun _ => hfail, fun ⟨t, lexeme, rest, hoffer⟩ => ?_, fun t lexeme rest hlong => ?_⟩
    · exact absurd hoffer (hoffers t lexeme rest)
    · exact absurd hlong.toOffers (hoffers t lexeme rest)
  · have hoffer : slot.Offers s.cursor.rest t lexeme rest :=
      (offers_iff hregular).mpr ⟨ht, raw, hfound⟩
    -- whatever stands there is what was found, or it is shorter
    have hcases : ∀ u lexeme' rest', slot.Offers s.cursor.rest u lexeme' rest' →
        (u = t ∧ lexeme' = lexeme ∧ rest' = rest) ∨ lexeme'.length < lexeme.length := by
      intro u lexeme' rest' hoffer'
      obtain ⟨hu, raw', hfound'⟩ := (offers_iff hregular).mp hoffer'
      exact hlongest u hu raw' lexeme' rest' hfound'
    refine ⟨fun hnone => absurd hoffer (hnone t lexeme rest), fun _ => ?_, ?_⟩
    · refine ⟨t, lexeme, rest, hoffer, fun u lexeme' rest' hoffer' => ?_⟩
      rcases hcases u lexeme' rest' hoffer' with ⟨-, rfl, -⟩ | hlt
      · exact Nat.le_refl _
      · omega
    · intro u lexeme' rest' hlong
      rcases hcases u lexeme' rest' hlong.toOffers with ⟨rfl, rfl, rfl⟩ | hlt
      · exact ⟨u.operator, trail, meanings_lookup hslot ht, hmatch⟩
      · have hle := hlong.longest t lexeme rest hoffer
        omega

/-- A comment stands between two words in capitals, a symbol begins with a shorter one, and two words
without a gap between them are none of the spellings. -/
theorem operator_longest_notLike :
    (∃ trail, (Rule.operator .compare).run (.start "NOT--\n Like 'a%'".toList) =
      (true, (State.start "NOT--\n Like 'a%'".toList).taking trail .notLike
        "NOT--\n Like".toList " 'a%'".toList)) ∧
    (∃ trail, (Rule.operator .compare).run (.start "<>1".toList) =
      (true, (State.start "<>1".toList).taking trail .neq "<>".toList "1".toList)) ∧
    ∃ trail, (Rule.operator .compare).run (.start "notlike 'a%'".toList) =
      (false, (State.start "notlike 'a%'".toList).withTrail trail) := by
  have hcompare : Slot.compare ∈ slots := by simp [slots]
  have hregular := (slots_ordered _ hcompare).1
  have hlike : Slot.compare.Longest "NOT--\n Like 'a%'".toList (.phrase ["not", "like"])
      "NOT--\n Like".toList " 'a%'".toList := by
    have hfound : (Spelling.phrase ["not", "like"]).terminal "NOT--\n Like 'a%'".toList =
        .found "NOT Like".toList "NOT--\n Like".toList " 'a%'".toList := by
      decide +kernel
    exact longest_of_lexemes hregular (by decide) hfound (by decide +kernel)
  have hneq : Slot.compare.Longest "<>1".toList (.symbol "<>") "<>".toList "1".toList := by
    have hfound : (Spelling.symbol "<>").terminal "<>1".toList =
        .found "<>".toList "<>".toList "1".toList := by
      decide +kernel
    exact longest_of_lexemes hregular (by decide) hfound (by decide +kernel)
  have hnone : ∀ t lexeme rest, ¬ Slot.compare.Offers "notlike 'a%'".toList t lexeme rest := by
    intro u lexeme rest hoffer
    have hall : ∀ u ∈ Slot.compare, (u.terminal "notlike 'a%'".toList).lexeme? = none := by
      decide +kernel
    have hlexeme := hoffer.lexeme?_eq hregular
    rw [hall u hoffer.listed] at hlexeme
    cases hlexeme
  refine ⟨?_, ?_, (operator_longest hcompare _).1 hnone⟩
  · obtain ⟨op, trail, hop, hrun⟩ := (operator_longest hcompare (.start _)).2.2 _ _ _ hlike
    have hmeaning : meanings.lookup (.phrase ["not", "like"]) = some .notLike := by decide +kernel
    obtain rfl := Option.some.inj (hmeaning.symm.trans hop)
    exact ⟨trail, hrun⟩
  · obtain ⟨op, trail, hop, hrun⟩ := (operator_longest hcompare (.start _)).2.2 _ _ _ hneq
    have hmeaning : meanings.lookup (.symbol "<>") = some .neq := by decide +kernel
    obtain rfl := Option.some.inj (hmeaning.symm.trans hop)
    exact ⟨trail, hrun⟩

end Slot

end FilterQuery.Grammar
