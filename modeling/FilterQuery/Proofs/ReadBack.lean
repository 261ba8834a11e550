import FilterQuery.Proofs.Canonical

/-!
Canonical text is read back, level by level. What follows a node in canonical text belongs to a
looser level, so that no optional part of a tighter one reads it. A test takes the gap after it
along; hence a node is read up to what follows, with or without the gap before it.
-/
namespace FilterQuery.Grammar

open Number Scanner Result

variable {room : Room} {cs rest tail : List Char}

/-! ## Chains -/

/-- A chain of operands that is folded to the left, read one operator after the other. -/
inductive Chain (room : Room) (make : Draft → Operator → Draft → Draft) (op : Symbol Operator)
    (part : Symbol Draft) : List Char → Draft → List Char → Prop where
  | first {cs rest : List Char} {d : Draft} (h : Reads room (.call part) cs (matched d rest)) :
      Chain room make op part cs d rest
  | next {cs mid mid' rest : List Char} {l r : Draft} {o : Operator}
      (hl : Chain room make op part cs l mid) (ho : Reads room (.call op) mid (matched o mid'))
      (hr : Reads room (.call part) mid' (matched r rest)) :
      Chain room make op part cs (make l o r) rest

namespace Chain

variable {make : Draft → Operator → Draft → Draft} {op : Symbol Operator} {part : Symbol Draft}
  {d : Draft}

/-- A chain is its first operand and the operators and operands after it, which the repetition
passes. -/
theorem parts (h : Chain room make op part cs d rest) :
    ∃ first mid parts, Reads room (.call part) cs (matched first mid) ∧
      Draft.foldLeft make first parts = d ∧
      ∀ {γ : Type} (f : List (Operator × Draft) → γ) {o : Result γ},
        Reads room (.star (fun more => f (parts ++ more)) (Peg.pair (.call op) (.call part))) rest o →
        Reads room (.star f (Peg.pair (.call op) (.call part))) mid o := by
  induction h with
  | first h => exact ⟨_, _, [], h, rfl, fun f o hmore => hmore⟩
  | @next _ _ _ l r o hl ho hr ih =>
    obtain ⟨first, mid, parts, hfirst, rfl, hparts⟩ := ih
    refine ⟨first, mid, parts ++ [(o, r)], hfirst, by simp [Draft.foldLeft], fun f o hmore => ?_⟩
    refine hparts f (.starMore (.seq ho hr) ?_)
    simpa using hmore

/-- Where no operator follows the chain is read in full. -/
theorem reads (h : Chain room make op part cs d rest)
    (hstop : Reads room (.call op) rest (halted .failed)) :
    Reads room (.seq (Draft.foldLeft make) (.call part)
      (Peg.many (Peg.pair (.call op) (.call part)))) cs (matched d rest) := by
  obtain ⟨first, mid, parts, hfirst, rfl, hparts⟩ := h.parts
  have hend := hparts id (.starEnd (.seqLeft hstop))
  rw [id, List.append_nil] at hend
  exact .seq hfirst hend

end Chain

/-! ## What a level reads -/

/-- The rest is the tail, with or without the gap that it begins with. -/
def Upto (tail rest : List Char) : Prop := rest = tail ∨ rest = ahead tail

theorem Upto.ahead (h : Upto tail rest) : ahead rest = ahead tail := by
  rcases h with rfl | rfl
  · rfl
  · exact ahead_ahead _

theorem Upto.closes (h : Upto tail rest) (htail : Closes tail) : rest = tail := by
  rcases h with rfl | rfl
  · rfl
  · exact htail.ahead

/-- The level reads the text as the draft, up to the tail. -/
def Lands (room : Room) : Binding → List Char → Draft → List Char → Prop
  | .logic, cs, d, tail =>
    ∃ rest, Upto tail rest ∧ Chain room .logic .logic .notExpression cs d rest
  | .negation, cs, d, tail =>
    ∃ rest, Upto tail rest ∧ Reads room (.call .notExpression) cs (matched d rest)
  | .comparison, cs, d, tail =>
    ∃ rest, Upto tail rest ∧ Chain room .compare .compare .compareInExpression cs d rest
  | .membership, cs, d, tail =>
    ∃ rest, Upto tail rest ∧ Reads room (.call .compareInExpression) cs (matched d rest)
  | .predicate, cs, d, tail =>
    ∃ rest, Upto tail rest ∧ Reads room (.call .predicateExpression) cs (matched d rest)
  | .between, cs, d, tail => Reads room (.call .betweenExpression) cs (matched d tail)
  | .primary, cs, d, tail => Reads room (.call .primaryExpression) cs (matched d tail)

/-- What can follow a node of the level; the operators of its own chain can. -/
def continuations : Binding → List Operator
  | .logic => followers .negation
  | .comparison => followers .membership
  | level => followers level

/-- Canonical text of the node is read at the level, wherever the node can stand. -/
def ReadsBack (style : Style) (level : Binding) (t : Node) : Prop :=
  t.HasPlaces → ∀ ⦃room : Room⦄ ⦃tail : List Char⦄, room.Fits t.nesting →
    Follows (continuations level) tail → Lands room level (t.spell style ++ tail) t.draft tail

/-! ## Where operands fail -/

theorem Reads.primary_failed (hopen : Terminal.startsWith ('(' == ·) cs = false)
    (hvalue : Reads room (.call .value) cs (halted .failed))
    (hname : Reads room (.call .identifier) cs (halted .failed)) :
    Reads room (.call .primaryExpression) cs (halted .failed) :=
  .call <| .choiceRight (.seqLeft (.seqLeft (.text_failed rfl hopen))) <|
    .choiceRight hvalue <| .choiceRight (.seqLeft hname) (.call (.seqLeft (.seqLeft hname)))

/-- Every level begins with a primary. -/
theorem Reads.comparison_failed (h : Reads room (.call .primaryExpression) cs (halted .failed)) :
    Reads room (.call .compareExpression) cs (halted .failed) :=
  .call (.seqLeft (.call (.seqLeft (.call (.seqLeft (.call (.seqLeft h)))))))

/-- No expression begins with a closing parenthesis. -/
theorem Reads.expression_closed : Reads room (.call .expression) (')' :: cs) (halted .failed) := by
  have hprimary : Reads room (.call .primaryExpression) (')' :: cs) (halted .failed) :=
    .primary_failed rfl (.value_failed (no_literalWord rfl) rfl) (.name_failed rfl)
  have hnot : Reads room (Peg.keyword "not") (ahead (')' :: cs)) (halted .failed) := by
    rw [ahead_close (Or.inl rfl)]
    exact .keyword_failed (by decide) (by simp [Terminal.isIdentifierChar, Char.isAlphanum])
  exact .call (.call (.seqLeft (.call
    (.choiceRight (.comparison_failed hprimary) (.seqLeft (.pastGap (.seqLeft hnot)))))))

/-- No operand begins with the word `not`. -/
theorem Reads.comparison_not :
    Reads room (.call .compareExpression) ("not ".toList ++ cs) (halted .failed) := by
  refine .comparison_failed (.primary_failed rfl (.value_failed (fun w hw => ?_) rfl) .not_name)
  have htext : "not ".toList ++ cs = "not".toList ++ ' ' :: cs := rfl
  rw [htext, takeWhile_word (by decide) rfl]
  revert w
  decide

/-! ## Primaries -/

theorem opensValue_of_isAlpha {c : Char} (hc : c.isAlpha = true) : opensValue c = false := by
  have hdigit : c.isDigit = false := by
    by_contra hdigit
    rw [not_isAlpha_of_isDigit (by simpa using hdigit)] at hc
    simp at hc
  simp only [opensValue, opensLiteral, hdigit, Bool.or_false, Bool.or_eq_false_iff,
    beq_eq_false_iff_ne]
  refine ⟨⟨⟨⟨?_, ?_⟩, ?_⟩, ?_⟩, ?_⟩ <;>
    · rintro rfl
      exact absurd hc (by decide)

/-- An operand that begins with a name is neither in brackets nor a value. -/
theorem head_not_open {name : String} (hname : IsHead name) (rest : List Char) :
    Terminal.startsWith opensValue (name.toList ++ rest) = false ∧
      Terminal.startsWith ('(' == ·) (name.toList ++ rest) = false := by
  obtain ⟨c, cs, hletters, hc, hcs⟩ := hname.letters
  have hopens : Terminal.startsWith opensValue (name.toList ++ rest) = false := by
    rw [hletters]
    exact opensValue_of_isAlpha hc
  exact ⟨hopens, startsWith_mono hopens fun d hd => eq_of_beq hd ▸ rfl⟩

theorem Reads.head_not_value {name : String} (hname : IsHead name)
    (hrest : Terminal.startsWith Terminal.isIdentifierChar rest = false) :
    Reads room (.call .value) (name.toList ++ rest) (halted .failed) := by
  refine .value_failed (fun w hw heq => ?_) (head_not_open hname rest).1
  rw [takeWhile_word (name_identifierChars hname.toIsName) hrest] at heq
  exact hname.not_literal (String.toList_inj.mp heq ▸ hw)

/-- An operand that begins with a name is a function or a reference. -/
theorem Reads.primary_named {name : String} {o : Result Draft} (hname : IsHead name)
    (hrest : Terminal.startsWith Terminal.isIdentifierChar rest = false)
    (h : Reads room (.choice (.seq Draft.function (.call .identifier) (.call .argumentList))
      (.call .reference)) (name.toList ++ rest) o) :
    Reads room (.call .primaryExpression) (name.toList ++ rest) o :=
  .call (.choiceRight (.seqLeft (.seqLeft (.text_failed rfl (head_not_open hname rest).2)))
    (.choiceRight (.head_not_value hname hrest) h))

/-- The text of a value is never taken for parentheses: its arrays are in square brackets. -/
theorem value_not_open {v : Value} (hv : v.IsFlat) (hplaces : ∀ d ∈ v.decimals, 1 ≤ d.scale)
    (htail : EndsToken tail) : Terminal.startsWith ('(' == ·) (v.spell ++ tail) = false := by
  rcases Value.flat_cases hv hplaces with ⟨hplain, -⟩ | ⟨es, rfl, -⟩
  · have hread : Reads .unlimited (.call .literal) (v.spell ++ tail) (matched v.literal tail) :=
      .scalar hplain htail
    cases hcs : v.spell ++ tail with
    | nil => rfl
    | cons c cs =>
      by_contra hopen
      obtain rfl : '(' = c := by simpa [Terminal.startsWith] using hopen
      rw [hcs] at hread
      cases hread.unique (.literal_failed (no_literalWord rfl) rfl)
  · rfl

/-! ### References -/

theorem steps_head (accessor : Accessor) (names : List String) {ok : Char → Bool}
    (hok : ['.', '-'].all (!ok ·) = true) (hrest : Terminal.startsWith ok rest = false) :
    Terminal.startsWith ok
      ((names.flatMap fun name => accessor.text.toList ++ name.toList) ++ rest) = false := by
  cases names with
  | nil => exact hrest
  | cons name names => cases accessor <;> simp_all [Accessor.text, Terminal.startsWith]

theorem Reads.steps {γ : Type} {accessor : Accessor} {names : List String} (f : List String → γ)
    (hnames : ∀ name ∈ names, IsName name)
    (hrest : Terminal.startsWith Terminal.isIdentifierChar rest = false)
    (hstop : Reads room (Peg.step accessor) rest (halted .failed)) :
    Reads room (.star f (Peg.step accessor))
      ((names.flatMap fun name => accessor.text.toList ++ name.toList) ++ rest)
      (matched (f names) rest) := by
  induction names generalizing f with
  | nil => exact .starEnd hstop
  | cons name names ih =>
    obtain ⟨hname, hnames⟩ := List.forall_mem_cons.mp hnames
    rw [List.flatMap_cons, List.append_assoc, List.append_assoc]
    have hothers := steps_head accessor names (by decide) hrest
    exact .starMore (.seq (.text _ _) (.name hname hothers)) (ih (fun as => f (name :: as)) hnames)

/-- A path is read step by step, the dots before the arrows. -/
theorem Reads.path {head : String} (dots arrows : List String) (hhead : IsHead head)
    (hnames : ∀ name ∈ dots ++ arrows, IsName name) (htail : EndsToken tail) :
    Reads room (.call .primaryExpression)
      (head.toList ++ ((dots.flatMap fun name => Accessor.dot.text.toList ++ name.toList) ++
        ((arrows.flatMap fun name => Accessor.arrow.text.toList ++ name.toList) ++ tail)))
      (matched (.ofPath head (Draft.pathSteps dots arrows)) tail) := by
  obtain ⟨hdots, harrows⟩ := List.forall_mem_append.mp hnames
  have hend : Reads room (Peg.step .arrow) tail (halted .failed) :=
    .seqLeft (.text_failed rfl (htail.startsWith _ (by decide)))
  have hbetween : Reads room (Peg.step .dot)
      ((arrows.flatMap fun name => Accessor.arrow.text.toList ++ name.toList) ++ tail)
      (halted .failed) := by
    refine .seqLeft (.text_failed rfl ?_)
    cases arrows with
    | nil => exact htail.startsWith _ (by decide)
    | cons => rfl
  have hsteps := Reads.seq (f := Draft.pathSteps)
    (.steps id hdots (steps_head .arrow arrows (by decide) htail.not_identifierChar) hbetween)
    (.steps id harrows htail.not_identifierChar hend)
  have hafter : ∀ {ok : Char → Bool}, ['.', '-'].all (!ok ·) = true →
      Terminal.startsWith ok tail = false → _ := fun hok htail =>
    steps_head .dot dots hok (steps_head .arrow arrows hok htail)
  have hname : Reads room (.call .identifier) _ _ :=
    .name hhead.toIsName (hafter (by decide) htail.not_identifierChar)
  have hnoList : Reads room (.call .argumentList) _ (halted .failed) :=
    .call (.seqLeft (.text_failed rfl (hafter (by decide) (htail.startsWith _ (by decide)))))
  exact .primary_named hhead (hafter (by decide) htail.not_identifierChar)
    (.choiceRight (.seqRight hname hnoList) (.call (.map _ (.seq hname hsteps))))

/-! ## Levels -/

section levels

variable {d : Draft}

/-- An operand that no range follows is a range by itself. -/
theorem Reads.between_of_primary (h : Reads room (.call .primaryExpression) cs (matched d tail))
    (htail : Follows (followers .between) tail) :
    Reads room (.call .betweenExpression) cs (matched d tail) := by
  have hslot := slots_miss (Slot.between, followers .between) (by simp)
  have hstop : Reads room Peg.range (ahead tail) (halted .failed) :=
    .range (Slot.stops hslot htail)
  exact .call (.seq h (.optionalNone (.pastGap (.seqLeft hstop))))

theorem Reads.predicate_of_between (h : Reads room (.call .betweenExpression) cs (matched d tail))
    (htail : Follows (followers .predicate) tail) :
    Reads room (.call .predicateExpression) cs (matched d tail) :=
  .call (.seq h (.optionalNone (.test_stops htail)))

theorem Reads.membership_of_predicate
    (h : Reads room (.call .predicateExpression) cs (matched d rest)) (hupto : Upto tail rest)
    (htail : Follows (followers .membership) tail) :
    Reads room (.call .compareInExpression) cs (matched d rest) := by
  have hslot := slots_miss (Slot.oneOf, followers .membership) (by simp)
  have hstop : Reads room Slot.oneOf.peg (ahead rest) (halted .failed) :=
    hupto.ahead ▸ Slot.stops hslot htail
  exact .call (.seq h (.optionalNone (.pastGap (.seqLeft hstop))))

theorem Reads.comparison_of_chain
    (h : Chain room .compare .compare .compareInExpression cs d rest) (hupto : Upto tail rest)
    (htail : Follows (followers .comparison) tail) :
    Reads room (.call .compareExpression) cs (matched d rest) := by
  have hslot := slots_miss (Slot.compare, followers .comparison) (by simp)
  have hstop : Reads room Slot.compare.peg (ahead rest) (halted .failed) :=
    hupto.ahead ▸ Slot.stops hslot htail
  exact .call (h.reads (.call (.pastGap (.seqLeft hstop))))

theorem Reads.expression_of_chain (h : Chain room .logic .logic .notExpression cs d rest)
    (hclose : Closes rest) : Reads room (.call .expression) cs (matched d rest) := by
  have hslot := slots_miss (Slot.logic, followers .logic) (by simp)
  exact .call (.call (h.reads (.call (.pastGap (.seqLeft (Slot.stops hslot (Or.inl hclose)))))))

/-- A range in full, with its bounds ahead. -/
theorem Reads.between_bounds {op : Operator} {low high : Draft} {bounds : List Char}
    (h : Reads room (.call .primaryExpression) cs
      (matched d (' ' :: (op.spell .word ++ ' ' :: bounds))))
    (hop : op.isRange = true) (hsolid : ahead bounds = bounds)
    (hbounds : Reads room Peg.bounds bounds (matched (low, high) tail)) :
    Reads room (.call .betweenExpression) cs (matched (.between d op low high) tail) := by
  have hslot := slots_find (Slot.between, Operator.ranges) (by simp)
  have hblank : EndsToken (' ' :: bounds) := endsToken_cons (by decide)
  have hrange : Reads room
      (Peg.before Peg.gap (Peg.pair Peg.range (Peg.before Peg.gap Peg.bounds)))
      (' ' :: (op.spell .word ++ ' ' :: bounds)) (matched (op, low, high) tail) := by
    refine .pastGap (.seq (.range (Slot.reads hslot (Operator.mem_ranges hop) .word hblank))
      (.pastGap ?_))
    rw [ahead_blank, hsolid]
    exact hbounds
  exact .call (.seq h (.optionalSome hrange))

/-- Two values with `and` between them. -/
theorem Reads.bounds_words {low high : List Char} {l h : Draft}
    (hlow : Reads room (.call .value) (low ++ ' ' :: ("and".toList ++ ' ' :: (high ++ tail)))
      (matched l (' ' :: ("and".toList ++ ' ' :: (high ++ tail)))))
    (hsolid : Solid high) (hhigh : Reads room (.call .value) (high ++ tail) (matched h tail)) :
    Reads room Peg.bounds (low ++ ' ' :: ("and".toList ++ ' ' :: (high ++ tail)))
      (matched (l, h) tail) := by
  have hword : Solid "and".toList := solid_word (by decide)
  refine .choiceLeft (.seq hlow (.pastGap ?_))
  rw [ahead_blank, hword]
  refine .seq (.keyword rfl) (.pastGap ?_)
  rw [ahead_blank, hsolid]
  exact hhigh

end levels

/-! ## One lemma for each form of a node -/

namespace ReadsBack

variable {style : Style} {level : Binding} {l r t : Node} {op : Operator}

attribute [local simp] Node.spell

/-- An expression is read up to a text that closes it. -/
theorem expression (h : ReadsBack style .logic t) (hplaces : t.HasPlaces)
    (hfits : room.Fits t.nesting) (htail : Closes tail) :
    Reads room (.call .expression) (t.spell style ++ tail) (matched t.draft tail) := by
  obtain ⟨rest, hupto, hchain⟩ := h hplaces hfits (Or.inl htail)
  obtain rfl := hupto.closes htail
  exact .expression_of_chain hchain htail

theorem parentheses (h : ReadsBack style .logic t) (ht : Shaped .logic t) :
    ReadsBack style .primary (.parentheses t) := by
  intro hplaces room tail hfits htail
  obtain ⟨inner, hroom, hfits⟩ := hfits.inner
  have hclose : Closes (')' :: tail) := by
    rintro c ⟨⟩
    exact Or.inl rfl
  have hsolid : ahead (t.spell style ++ ')' :: tail) = t.spell style ++ ')' :: tail :=
    solid_spell ht hplaces style _
  have htext : (Node.parentheses t).spell style ++ tail =
      '(' :: (t.spell style ++ ')' :: tail) := by
    simp
  rw [htext]
  refine .call (.choiceLeft (.map Draft.parentheses (.seq (.oneText rfl) (.pastGap ?_))))
  rw [hsolid]
  exact .seq (.deeper hroom (h.expression hplaces hfits hclose)) (.closing (Or.inl rfl) rfl)

theorem value {v : Value} (hv : v.IsFlat) : ReadsBack style .primary (.value v) := by
  intro hplaces room tail hfits htail
  have hopen := value_not_open hv hplaces htail.endsToken
  exact .call (.choiceRight (.seqLeft (.seqLeft (.text_failed rfl hopen)))
    (.choiceLeft (.value hv hplaces htail.endsToken)))

theorem function {name : String} {params : List Node} (hname : IsHead name)
    (hparams : ∀ t ∈ params, Shaped .logic t) (h : ∀ t ∈ params, ReadsBack style .logic t) :
    ReadsBack style .primary (.function name params) := by
  intro hplaces room tail hfits htail
  obtain ⟨inner, hroom, hfits⟩ := hfits.inner
  have hsolid : ∀ t ∈ params, Solid (t.spell style) := fun t ht =>
    solid_spell (hparams t ht) (hplaces.param ht) style
  have hlist : Reads inner (Peg.commaList (.call .argument))
      (joined (Node.spell style) params ++ ')' :: tail)
      (matched (params.map Node.draft) (')' :: tail)) := by
    refine .commaJoined (Or.inl rfl) hsolid (fun t ht d ds hd => ?_) (.call .expression_closed)
    have hfits : inner.Fits t.nesting := hfits.mono (Node.nesting_le_of_mem ht)
    refine .call ((h t ht).expression (hplaces.param ht) hfits ?_)
    rintro c ⟨⟩
    exact hd.symm
  have htext : (Node.function name params).spell style ++ tail =
      name.toList ++ '(' :: (joined (Node.spell style) params ++ ')' :: tail) := by
    simp [Node.spellList_eq]
  rw [htext, Node.draft, Node.draftAll_eq_map]
  refine .primary_named hname rfl (.choiceLeft (.seq (.name hname.toIsName rfl)
    (.call (.seq (.oneText rfl) (.pastGap ?_)))))
  rw [ahead_joined (Or.inl rfl) hsolid]
  exact .seq (.deeper hroom hlist) (.closing (Or.inl rfl) rfl)

theorem identifier {name : String} (hname : IsHead name) :
    ReadsBack style .primary (.identifier name) := by
  intro hplaces room tail hfits htail
  exact .path [] [] hname (by simp) htail.endsToken

theorem reference {r : Reference} (hr : r.IsPath) : ReadsBack style .primary (.reference r) := by
  intro hplaces room tail hfits htail
  obtain ⟨hhead, ⟨dots, arrows, hsteps⟩, hnames, hnonempty⟩ := hr
  obtain ⟨head, steps⟩ := r
  subst hsteps
  have hpathNames : ∀ name ∈ dots ++ arrows, IsName name := by
    intro name hname
    rcases List.mem_append.mp hname with hname | hname
    · exact hnames (.dot, name) (List.mem_append_left _ (List.mem_map_of_mem hname))
    · exact hnames (.arrow, name) (List.mem_append_right _ (List.mem_map_of_mem hname))
  have htext : (Node.reference ⟨head, Draft.pathSteps dots arrows⟩).spell style ++ tail =
      head.toList ++ ((dots.flatMap fun name => Accessor.dot.text.toList ++ name.toList) ++
        ((arrows.flatMap fun name => Accessor.arrow.text.toList ++ name.toList) ++ tail)) := by
    simp [Reference.spell, Draft.pathSteps, List.flatMap_map]
  have hdraft : Draft.ofPath head (Draft.pathSteps dots arrows) =
      .reference ⟨head, Draft.pathSteps dots arrows⟩ := by
    cases hsteps : Draft.pathSteps dots arrows with
    | nil => exact absurd hsteps hnonempty
    | cons step steps => rfl
  have hpath : Reads room (.call .primaryExpression) _ _ :=
    .path dots arrows hhead hpathNames htail.endsToken
  rw [hdraft, ← htext] at hpath
  exact hpath

/-! ### Ranges, tests and memberships -/

theorem ofPrimary (h : ReadsBack style .primary t) : ReadsBack style .between t := by
  intro hplaces room tail hfits htail
  have hprimary := h hplaces hfits (htail.mono (by simp [continuations, followers]))
  exact .between_of_primary hprimary htail

theorem between {low high : Value} (h : ReadsBack style .primary l) (hop : op.isRange = true)
    (hlow : low.IsFlat) (hhigh : high.IsFlat) :
    ReadsBack style .between (.between l op (.value low) (.value high)) := by
  intro hplaces room tail hfits htail
  obtain ⟨hplaces, hplacesLow, hplacesHigh⟩ := hplaces.between
  have htext : (Node.between l op (.value low) (.value high)).spell style ++ tail =
      l.spell style ++ ' ' :: (op.spell .word ++ ' ' ::
        (low.spell ++ ' ' :: ("and".toList ++ ' ' :: (high.spell ++ tail)))) := by
    simp [Operator.spell]
  rw [htext]
  have hblank : EndsToken (' ' ::
      (low.spell ++ ' ' :: ("and".toList ++ ' ' :: (high.spell ++ tail)))) :=
    endsToken_cons (by decide)
  have hprimary := h hplaces (hfits.mono (Nat.le_max_left _ _))
    (.operator (List.mem_append_left _ (Operator.mem_ranges hop)) .word hblank)
  exact .between_bounds hprimary hop (solid_value hlow hplacesLow _)
    (.bounds_words (.value hlow hplacesLow (endsToken_cons (by decide)))
      (solid_value hhigh hplacesHigh) (.value hhigh hplacesHigh htail.endsToken))

theorem ofBetween (h : ReadsBack style .between t) : ReadsBack style .predicate t := by
  intro hplaces room tail hfits htail
  have hbetween := h hplaces hfits (htail.mono (by simp [continuations, followers]))
  exact ⟨tail, Or.inl rfl, .predicate_of_between hbetween htail⟩

theorem predicate (h : ReadsBack style .between l) (hop : op.isPredicate = true) :
    ReadsBack style .predicate (.predicate l op) := by
  intro hplaces room tail hfits htail
  have htest := Operator.mem_tests hop
  have hbetween := h hplaces hfits (.operator (List.mem_append_left _ htest) .word htail.endsToken)
  have htext : (Node.predicate l op).spell style ++ tail =
      l.spell style ++ ' ' :: (op.spell .word ++ tail) := by
    simp [Operator.spell]
  rw [htext]
  exact ⟨ahead tail, Or.inr rfl,
    .call (.seq hbetween (.optionalSome (.test htest .word htail.endsToken)))⟩

theorem ofPredicate (h : ReadsBack style .predicate t) : ReadsBack style .membership t := by
  intro hplaces room tail hfits htail
  obtain ⟨rest, hupto, hpredicate⟩ :=
    h hplaces hfits (htail.mono (by simp [continuations, followers]))
  exact ⟨rest, hupto, .membership_of_predicate hpredicate hupto htail⟩

theorem membership {es : List Value} (h : ReadsBack style .predicate l)
    (hop : op ∈ Operator.memberships) (hes : ∀ e ∈ es, e.IsScalar) :
    ReadsBack style .membership (.compare l op (.value (.array es))) := by
  intro hplaces room tail hfits htail
  obtain ⟨hplaces, hplacesArray⟩ := hplaces.compare
  have hplain : ∀ e ∈ es, e.IsPlain := fun e he =>
    ⟨hes e he, fun d hd => hplacesArray d (Value.mem_decimalsOfAll.mpr ⟨e, he, hd⟩)⟩
  have hflat : (Value.array es).IsFlat := hes
  have hslot := slots_find (Slot.oneOf, Operator.memberships) (by simp)
  have htext : (Node.compare l op (.value (.array es))).spell style ++ tail =
      l.spell style ++ ' ' :: (op.spell style ++ ' ' :: ((Value.array es).spell ++ tail)) := by
    simp
  rw [htext]
  have hblank : EndsToken (' ' :: ((Value.array es).spell ++ tail)) := endsToken_cons (by decide)
  obtain ⟨rest, hupto, hpredicate⟩ := h hplaces (hfits.mono (Nat.le_max_left _ _))
    (.operator (List.mem_append_left _ hop) style hblank)
  have helements : Reads room
      (Peg.before Peg.gap (Peg.pair Slot.oneOf.peg (Peg.before Peg.gap (.call .array)))) rest
      (matched (op, es.map Value.literal) tail) := by
    refine .pastGap (.seq (hupto.ahead ▸ Slot.reads hslot hop style hblank) (.pastGap ?_))
    rw [ahead_blank, solid_value hflat hplacesArray]
    exact .array hplain
  exact ⟨tail, Or.inl rfl, .call (.seq hpredicate (.optionalSome helements))⟩

theorem ofMembership (h : ReadsBack style .membership t) : ReadsBack style .comparison t := by
  intro hplaces room tail hfits htail
  obtain ⟨rest, hupto, hmembership⟩ := h hplaces hfits htail
  exact ⟨rest, hupto, .first hmembership⟩

/-! ### Comparisons, negations and logic -/

theorem compare (h : ReadsBack style .comparison l) (hop : op ∈ Operator.comparisons)
    (hr : ReadsBack style .membership r) (hright : Shaped .membership r) :
    ReadsBack style .comparison (.compare l op r) := by
  intro hplaces room tail hfits htail
  obtain ⟨hplacesLeft, hplacesRight⟩ := hplaces.compare
  have hslot := slots_find (Slot.compare, Operator.comparisons) (by simp)
  have hblank : EndsToken (' ' :: (r.spell style ++ tail)) := endsToken_cons (by decide)
  obtain ⟨mid, hmid, hchain⟩ := h hplacesLeft (hfits.mono (Nat.le_max_left _ _))
    (.operator (List.mem_append_left _ hop) style hblank)
  obtain ⟨rest, hupto, hpart⟩ := hr hplacesRight (hfits.mono (Nat.le_max_right _ _)) htail
  have hoperator : Reads room (.call .compare) mid (matched op (r.spell style ++ tail)) :=
    .call (.spacedOperator hslot hop hmid.ahead (solid_spell hright hplacesRight style tail))
  have htext : (Node.compare l op r).spell style ++ tail =
      l.spell style ++ ' ' :: (op.spell style ++ ' ' :: (r.spell style ++ tail)) := by
    simp
  rw [htext]
  exact ⟨rest, hupto, .next hchain hoperator hpart⟩

/-- A comparison is read in full where no further comparison can follow. -/
theorem comparison (h : ReadsBack style .comparison t) (hplaces : t.HasPlaces)
    (hfits : room.Fits t.nesting) (htail : Follows (followers .comparison) tail) :
    ∃ rest, Upto tail rest ∧
      Reads room (.call .compareExpression) (t.spell style ++ tail) (matched t.draft rest) := by
  obtain ⟨rest, hupto, hchain⟩ :=
    h hplaces hfits (htail.mono (by simp [continuations, followers]))
  exact ⟨rest, hupto, .comparison_of_chain hchain hupto htail⟩

theorem ofComparison (h : ReadsBack style .comparison t) : ReadsBack style .negation t := by
  intro hplaces room tail hfits htail
  obtain ⟨rest, hupto, hcomparison⟩ := h.comparison hplaces hfits htail
  exact ⟨rest, hupto, .call (.choiceLeft hcomparison)⟩

theorem not (h : ReadsBack style .comparison t) (ht : Shaped .comparison t) :
    ReadsBack style .negation (.not t) := by
  intro hplaces room tail hfits htail
  obtain ⟨rest, hupto, hcomparison⟩ := h.comparison hplaces hfits htail
  have htext : (Node.not t).spell style ++ tail =
      "not".toList ++ ' ' :: (t.spell style ++ tail) := rfl
  have hword : Reads room (Peg.before Peg.gap (Peg.before (Peg.keyword "not")
      (Peg.before Peg.gap (.call .compareExpression))))
      ("not".toList ++ ' ' :: (t.spell style ++ tail)) (matched t.draft rest) := by
    have hsolid : Solid "not".toList := solid_word (by decide)
    refine .pastGap ?_
    rw [hsolid]
    refine .seq (.keyword rfl) (.pastGap ?_)
    rw [ahead_blank, solid_spell ht hplaces style]
    exact hcomparison
  rw [htext]
  exact ⟨rest, hupto, .call (.choiceRight .comparison_not (.map Draft.not hword))⟩

theorem ofNegation (h : ReadsBack style .negation t) : ReadsBack style .logic t := by
  intro hplaces room tail hfits htail
  obtain ⟨rest, hupto, hnegation⟩ := h hplaces hfits htail
  exact ⟨rest, hupto, .first hnegation⟩

theorem logic (h : ReadsBack style .logic l) (hop : op.isLogic = true)
    (hr : ReadsBack style .negation r) (hright : Shaped .negation r) :
    ReadsBack style .logic (.logic l op r) := by
  intro hplaces room tail hfits htail
  obtain ⟨hplacesLeft, hplacesRight⟩ := hplaces.logic
  have hslot := slots_find (Slot.logic, Operator.logics) (by simp)
  have hlogic := Operator.mem_logics hop
  have hblank : EndsToken (' ' :: (r.spell style ++ tail)) := endsToken_cons (by decide)
  obtain ⟨mid, hmid, hchain⟩ := h hplacesLeft (hfits.mono (Nat.le_max_left _ _))
    (.operator hlogic style hblank)
  obtain ⟨rest, hupto, hpart⟩ := hr hplacesRight (hfits.mono (Nat.le_max_right _ _)) htail
  have hoperator : Reads room (.call .logic) mid (matched op (r.spell style ++ tail)) :=
    .call (.spacedOperator hslot hlogic hmid.ahead (solid_spell hright hplacesRight style tail))
  have htext : (Node.logic l op r).spell style ++ tail =
      l.spell style ++ ' ' :: (op.spell style ++ ' ' :: (r.spell style ++ tail)) := by
    simp
  rw [htext]
  exact ⟨rest, hupto, .next hchain hoperator hpart⟩

end ReadsBack

/-- Canonical text of a node with the shape of a query tree is read back at its level. -/
theorem readsBack_of_shaped {level : Binding} {t : Node} (h : Shaped level t) (style : Style) :
    ReadsBack style level t := by
  induction h with
  | ofNegation _ ih => exact ih.ofNegation
  | logic hl hop hr ihl ihr => exact ihl.logic hop ihr hr
  | ofComparison _ ih => exact ih.ofComparison
  | not ht ih => exact ih.not ht
  | ofMembership _ ih => exact ih.ofMembership
  | compare hl hop hr ihl ihr => exact ihl.compare hop ihr hr
  | ofPredicate _ ih => exact ih.ofPredicate
  | membership hl hop hes ihl => exact ihl.membership hop hes
  | ofBetween _ ih => exact ih.ofBetween
  | predicate hl hop ihl => exact ihl.predicate hop
  | ofPrimary _ ih => exact ih.ofPrimary
  | between hl hop hlow hhigh ihl => exact ihl.between hop hlow hhigh
  | parentheses ht ih => exact ih.parentheses ht
  | value hv => exact .value hv
  | function hname hparams ih => exact .function hname hparams ih
  | identifier hname => exact .identifier hname
  | reference hr => exact .reference hr

end FilterQuery.Grammar
