import FilterQuery.Proofs.Behind
import FilterQuery.Proofs.ReadBack
import Mathlib.Data.List.TakeWhile

/-!
The two ways to write the bounds of a range. A pair in square brackets is the same range as two
values with `and` between them, whatever follows, unless the text goes on with `and` and another
value: the pair is then an array, and as such the first of two bounds.
-/
namespace FilterQuery

namespace Grammar

open Number Scanner Result

variable {α β γ : Type} {room : Room} {p : Peg α} {q : Peg β} {cs ds rest tail : List Char}

/-! ## Two texts that are read alike -/

/-- What the expression reads at the first text it reads at the second one as well. -/
def Peg.Agrees (room : Room) (p : Peg α) (cs ds : List Char) : Prop :=
  ∀ ⦃o : Result α⦄, Reads room p cs o → Reads room p ds o

namespace Peg.Agrees

theorem of_reads {o : Result α} (hcs : Reads room p cs o) (hds : Reads room p ds o) :
    p.Agrees room cs ds := fun _ h => h.unique hcs ▸ hds

/-- Once the first part agrees the second one has the same text ahead. -/
theorem seq {f : α → β → γ} (hp : p.Agrees room cs ds) : (Peg.seq f p q).Agrees room cs ds := by
  intro o h
  cases h with
  | seq hp' hq' => exact .seq (hp hp') hq'
  | seqLeft hp' => exact .seqLeft (hp hp')
  | seqRight hp' hq' => exact .seqRight (hp hp') hq'

theorem choice {q : Peg α} (hp : p.Agrees room cs ds) (hq : q.Agrees room cs ds) :
    (Peg.choice p q).Agrees room cs ds := by
  intro o h
  cases h with
  | choiceLeft hp' => exact .choiceLeft (hp hp')
  | choiceRight hp' hq' => exact .choiceRight (hp hp') (hq hq')
  | choiceDeep hp' => exact .choiceDeep (hp hp')

theorem call {s : Symbol α} (hs : s.body.Agrees room cs ds) : (Peg.call s).Agrees room cs ds := by
  intro o h
  cases h with
  | call hs' => exact .call (hs hs')

theorem pastGap (h : p.Agrees room (ahead cs) (ahead ds)) :
    (Peg.before Peg.gap p).Agrees room cs ds := by
  intro o hread
  cases hread with
  | seq hgap hp =>
    cases hgap.unique (.gap cs)
    exact .pastGap (h hp)
  | seqLeft hgap => cases hgap.unique (.gap cs)
  | seqRight hgap hp =>
    cases hgap.unique (.gap cs)
    exact .pastGap (h hp)

/-- Every expression begins with a range, or with `not`. -/
theorem grammar (h : (Peg.call .betweenExpression).Agrees room cs ds)
    (hcs : ahead cs = cs) (hds : ahead ds = ds)
    (hnot : (Peg.keyword "not").Agrees room cs ds) :
    (Peg.call .grammar).Agrees room cs ds := by
  have hcomparison : (Peg.call .compareExpression).Agrees room cs ds :=
    call (seq (call (seq (call (seq h)))))
  have hnegation : (Peg.call .notExpression).Agrees room cs ds := by
    refine call (choice hcomparison (seq (pastGap ?_)))
    rw [hcs, hds]
    exact seq hnot
  refine call (pastGap ?_)
  rw [hcs, hds]
  exact seq (call (call (seq hnegation)))

end Peg.Agrees

/-! ## Texts of literals -/

/-- The text is a literal and nothing else. -/
def IsLiteral (text : List Char) : Prop :=
  ∃ l, Reads .unlimited (.call .literal) text (matched l [])

/-- The text is read as the literal wherever a token can end. -/
def StandsFor (text : List Char) (l : Literal) : Prop :=
  ∀ ⦃room : Room⦄ ⦃tail : List Char⦄, EndsToken tail →
    Reads room (.call .literal) (text ++ tail) (matched l tail)

theorem StandsFor.value {text tail : List Char} {l : Literal} (h : StandsFor text l)
    (htail : EndsToken tail) : Reads room (.call .value) (text ++ tail) (matched (.literal l) tail) :=
  .call (.choiceLeft (.map Draft.literal (h htail)))

namespace Realizes

variable {r : Rule} {e : α → Assembly → Assembly}

/-- What cannot hit the nesting limit matches or fails. -/
theorem total (hr : Realizes r room p e) (hshallow : r.isShallow = true) (cs : List Char) :
    (∃ a rest, Reads room p cs (.matched a rest)) ∨ Reads room p cs (halted .failed) := by
  have hkept := Rule.run_shallow hshallow (State.start cs)
  cases hrun : r.run (State.start cs) with
  | mk b s' =>
    rw [hrun] at hkept
    cases b with
    | true =>
      obtain ⟨a, -, hreads⟩ := hr.matched hrun
      exact Or.inl ⟨a, _, hreads hkept⟩
    | false => exact Or.inr ((hr.failed hrun).2 hkept)

/-- It does so in any room. -/
theorem reads_anywhere {o : Result α} (hr : Realizes r room p e) (hshallow : r.isShallow = true)
    (h : Reads .unlimited p cs o) : Reads room p cs o := by
  rcases hr.total hshallow cs with ⟨a, rest, hmatched⟩ | hfailed
  · exact h.unique (hmatched.unlimited (by simp)) ▸ hmatched
  · exact h.unique (hfailed.unlimited (by simp)) ▸ hfailed

end Realizes

namespace IsLiteral

variable {text more : List Char} {c : Char}

theorem reads (h : IsLiteral text) :
    ∃ l, ∀ room, Reads room (.call .literal) text (matched l []) := by
  obtain ⟨l, hread⟩ := h
  exact ⟨l, fun room => literal_realizes.toRealizes.reads_anywhere rfl hread⟩

theorem not_reads_failed (h : IsLiteral text) :
    ¬ Reads .unlimited (.call .literal) text (halted .failed) := by
  intro hfailed
  obtain ⟨l, hread⟩ := h
  cases hread.unique hfailed

/-- A dash alone is no number. -/
theorem dash_failed (hcs : Terminal.startsWith Char.isDigit cs = false) :
    Reads room (.call .literal) ('-' :: cs) (halted .failed) := by
  have hzero : Terminal.startsWith (· == '0') cs = false :=
    startsWith_mono hcs fun c hc => eq_of_beq hc ▸ rfl
  have hwhole : Reads room Peg.whole cs (halted .failed) :=
    .choiceRight (.seqLeft (.char_failed hzero)) (.seqLeft (.char_failed hcs))
  exact .literal_last (no_literalWord rfl) (.choiceRight (.seqLeft (.quoted_failed rfl))
    (.seqRight (.map Option.toList (.optionalSome (.char rfl))) (.seqLeft hwhole)))

/-- No gap begins with a literal. -/
theorem solid (h : IsLiteral text) : Solid text := by
  cases text with
  | nil => exact absurd (.literal_failed (no_literalWord rfl) rfl) h.not_reads_failed
  | cons c cs =>
    by_cases hdash : c = '-'
    · subst hdash
      cases cs with
      | nil => exact absurd (dash_failed rfl) h.not_reads_failed
      | cons d cs =>
        refine solid_negative ?_ cs
        rintro rfl
        exact h.not_reads_failed (dash_failed rfl)
    · have hopens : c.isAlpha = true ∨ opensLiteral c = true := by
        by_contra hnot
        simp only [not_or, Bool.not_eq_true] at hnot
        exact h.not_reads_failed (.literal_failed (no_literalWord hnot.1) hnot.2)
      refine solid_firm (isFirm_of (fun c => c.isAlpha || (opensLiteral c && c != '-')) ?_ ?_) cs
      · decide
      · rcases hopens with halpha | hopen
        · simp [halpha]
        · simp [hopen, hdash]

theorem not_opensQuote (h : IsLiteral text) : ¬ OpensQuote text := by
  rintro ⟨quote, body, rfl, hquote, hbody⟩
  have hopen : body.dropWhile (· != quote) = [] := by
    rw [List.dropWhile_eq_nil_iff]
    intro c hc
    have hne : c ≠ quote := fun heq => hbody (heq ▸ hc)
    simpa using hne
  have hquoted : Reads .unlimited Peg.quoted (quote :: body) (halted .failed) := by
    rcases hquote with rfl | rfl
    · exact .choiceRight (.quotedBy_open hopen) (.quotedBy_other rfl)
    · exact .choiceRight (.quotedBy_other rfl) (.quotedBy_open hopen)
  refine h.not_reads_failed (.literal_last (no_literalWord ?_)
    (.choiceRight (.seqLeft hquoted) (.number_failed ?_)))
  · rcases hquote with rfl | rfl <;> rfl
  · rcases hquote with rfl | rfl <;> rfl

theorem standsFor (h : IsLiteral text) : ∃ l, StandsFor text l := by
  obtain ⟨l, hread⟩ := h.reads
  refine ⟨l, fun room tail htail => ?_⟩
  cases tail with
  | nil => simpa using hread room
  | cons c cs => exact literal_stable h.not_opensQuote (htail c rfl) (hread room)

/-- Whether a given text is a literal can be tried out. -/
theorem of_run {text : List Char} (hmatched : (literal.run (State.start text)).1 = true)
    (hrest : (literal.run (State.start text)).2.cursor.rest = []) : IsLiteral text := by
  have hrealizes : RealizesExactly literal .unlimited (.call .literal) Assembly.putLiteral :=
    literal_realizes
  have hkept : (literal.run (State.start text)).2.tooDeep = none := Rule.run_shallow rfl _
  obtain ⟨l, -, hreads⟩ := hrealizes.matched (Prod.ext hmatched rfl)
  exact ⟨l, hrest ▸ hreads hkept⟩

theorem literalWord {word : String} (hword : word ∈ literalWords) : IsLiteral word.toList := by
  have hruns : ∀ word ∈ literalWords, (literal.run (State.start word.toList)).1 = true ∧
      (literal.run (State.start word.toList)).2.cursor.rest = [] := by
    decide
  exact of_run (hruns word hword).1 (hruns word hword).2

theorem of_isWhole {sign ds : List Char} (h : IsWhole sign ds) : IsLiteral (sign ++ ds) := by
  have hread : Reads .unlimited (.call .literal) (sign ++ (ds ++ []))
      (matched (.integer (String.ofList (sign ++ ds))) []) :=
    .literal_number h (h.reads_integer (by simp [EndsToken]))
  rw [List.append_nil] at hread
  exact ⟨_, hread⟩

/-- Canonical text of a scalar is a literal, also of a decimal that has no places and so reads as
an integer. -/
theorem spell {v : Value} (hv : v.IsScalar) : IsLiteral v.spell := by
  have hplain : v.IsPlain → IsLiteral v.spell := by
    intro hv
    have hread : Reads .unlimited (.call .literal) (v.spell ++ []) (matched v.literal []) :=
      .scalar hv (by simp [EndsToken])
    rw [List.append_nil] at hread
    exact ⟨_, hread⟩
  by_cases hplaces : ∀ d ∈ v.decimals, 1 ≤ d.scale
  · exact hplain ⟨hv, hplaces⟩
  · cases v with
    | decimal d =>
      have hscale : d.scale = 0 := by
        simpa [Value.decimals] using hplaces
      have hdigits : ∀ c ∈ digits d.units, c.isDigit = true := fun c =>
        Integer.isDigit_of_mem_digits
      have hone : 1 - (digits d.units).length = 0 := by
        have hpos := List.length_pos_of_ne_nil (Integer.digits_ne_nil d.units)
        omega
      have hmagnitude : d.toMagnitude.spell = digits d.units := by
        simp [Magnitude.spell, hscale, hone]
      rw [Value.spell, Decimal.spell, hmagnitude]
      split
      · exact of_isWhole ⟨Or.inr rfl, Integer.digits_cases _, hdigits⟩
      · exact of_isWhole ⟨Or.inl rfl, Integer.digits_cases _, hdigits⟩
    | array es => exact hv.elim
    | int | bool | string | null => simp [Value.decimals] at hplaces

end IsLiteral

/-! ## Reading a range -/

/-- A legal name is an operand, be it a reference or one of the words that are literals. -/
theorem Reads.primary_name {x : String} (hx : IsName x) :
    ∃ d, ∀ {room : Room} {cs : List Char}, EndsToken cs →
      Reads room (.call .primaryExpression) (x.toList ++ cs) (matched d cs) := by
  by_cases hword : x ∈ literalWords
  · obtain ⟨l, hread⟩ := (IsLiteral.literalWord hword).standsFor
    refine ⟨.literal l, fun {room cs} hcs => ?_⟩
    have hopens : Terminal.startsWith opensValue (x.toList ++ cs) = false := by
      obtain ⟨c, others, hletters, hc, -⟩ := hx.letters
      rw [hletters]
      exact opensValue_of_isAlpha hc
    have hopen : Terminal.startsWith ('(' == ·) (x.toList ++ cs) = false :=
      startsWith_mono hopens fun d hd => eq_of_beq hd ▸ rfl
    exact .call (.choiceRight (.seqLeft (.seqLeft (.text_failed rfl hopen)))
      (.choiceLeft (hread.value hcs)))
  · have hhead : IsHead x := ⟨hx, hword⟩
    exact ⟨_, fun hcs => .path [] [] hhead (by simp) hcs⟩

/-- A pair of literals in square brackets is an array. -/
theorem Reads.pair_array {low high : List Char} {l h : Literal} (hlow : IsLiteral low)
    (hhigh : IsLiteral high) (hreadsLow : StandsFor low l) (hreadsHigh : StandsFor high h) :
    Reads room (.call .value) ('[' :: (low ++ ',' :: ' ' :: (high ++ ']' :: tail)))
      (matched (.array [l, h]) tail) := by
  have hsolid : ∀ e ∈ [(low, l), (high, h)], Solid e.1 := by
    simp [hlow.solid, hhigh.solid]
  have hlist : Reads room (Peg.commaList (.call .literal))
      (joined Prod.fst [(low, l), (high, h)] ++ ']' :: tail)
      (matched ([(low, l), (high, h)].map Prod.snd) (']' :: tail)) := by
    refine .commaJoined (Or.inr rfl) hsolid ?_ (.literal_failed (no_literalWord rfl) rfl)
    intro e he c cs hc
    have hend : EndsToken (c :: cs) := by
      rcases hc with rfl | rfl <;> exact endsToken_cons (by decide)
    simp only [List.mem_cons, List.not_mem_nil, or_false] at he
    rcases he with rfl | rfl
    · exact hreadsLow hend
    · exact hreadsHigh hend
  have htext : low ++ ',' :: ' ' :: (high ++ ']' :: tail) =
      joined Prod.fst [(low, l), (high, h)] ++ ']' :: tail := by
    simp [joined]
  have harray : Reads room (.call .array) ('[' :: (low ++ ',' :: ' ' :: (high ++ ']' :: tail)))
      (matched [l, h] tail) := by
    refine .call (.choiceLeft (.seq (.oneText rfl) (.pastGap ?_)))
    rw [htext, ahead_joined (Or.inr rfl) hsolid]
    exact .seq hlist (.closing (Or.inr rfl) rfl)
  exact .call (.choiceRight (.seqLeft (.literal_failed (no_literalWord rfl) rfl))
    (.map Draft.array harray))

/-- The text goes on with the word `and` and a value. -/
def ContinuesRange (tail : List Char) : Prop :=
  ∃ d rest, Reads .unlimited (Peg.before Peg.gap (Peg.before (Peg.keyword "and")
    (Peg.before Peg.gap (.call .value)))) tail (matched d rest)

theorem Reads.range_ends (h : ¬ ContinuesRange tail) :
    Reads room (Peg.before Peg.gap (Peg.before (Peg.keyword "and")
      (Peg.before Peg.gap (.call .value)))) tail (halted .failed) := by
  refine .pastGap ?_
  rcases (keyword_obeys "and").total room (ahead tail) with ⟨⟨⟩, mid, hword⟩ | hword
  · have hvalue : RealizesExactly Grammar.value room (.call .value) Assembly.putDraft := value_realizes
    rcases hvalue.toRealizes.total rfl (ahead mid) with ⟨d, rest, hmatched⟩ | hfailed
    · have hread : Reads room (Peg.before Peg.gap (Peg.before (Peg.keyword "and")
          (Peg.before Peg.gap (.call .value)))) tail (matched d rest) :=
        .pastGap (.seq hword (.pastGap hmatched))
      exact absurd ⟨d, rest, hread.unlimited (by simp)⟩ h
    · exact .seqRight hword (.pastGap hfailed)
  · exact .seqLeft hword

/-- A pair in square brackets is read as bounds where no second bound follows it. -/
theorem Reads.bounds_pair {low high : List Char} {l h : Literal} (hlow : IsLiteral low)
    (hhigh : IsLiteral high) (hreadsLow : StandsFor low l) (hreadsHigh : StandsFor high h)
    (htail : ¬ ContinuesRange tail) :
    Reads room Peg.bounds ('[' :: (low ++ ',' :: ' ' :: (high ++ ']' :: tail)))
      (matched (.literal l, .literal h) tail) := by
  refine .choiceRight (.seqRight (.pair_array hlow hhigh hreadsLow hreadsHigh)
    (.range_ends htail)) ?_
  refine .seq (.oneText rfl) (.pastGap ?_)
  rw [hlow.solid]
  refine .seq (hreadsLow.value (endsToken_cons (by decide))) (.pastGap ?_)
  rw [ahead_solid (by decide) (by decide) (by decide)]
  refine .seq (.oneText rfl) (.pastGap ?_)
  rw [ahead_blank, hhigh.solid]
  exact .seq (hreadsHigh.value (endsToken_cons (by decide))) (.closing (Or.inr rfl) rfl)

end Grammar

open Grammar Result

/-- A range with `and` between its bounds. -/
def wordRange (x : String) (op : Operator) (low high tail : String) : String :=
  x ++ " " ++ op.code ++ " " ++ low ++ " and " ++ high ++ tail

/-- A range with its bounds in square brackets. -/
def pairRange (x : String) (op : Operator) (low high tail : String) : String :=
  x ++ " " ++ op.code ++ " [" ++ low ++ ", " ++ high ++ "]" ++ tail

/-- Two queries that begin with a name and with ranges of the same draft, and go on alike. -/
theorem parse_iff_of_range {q q' x : String} {cs cs' rest : List Char} {d : Draft} (hx : IsName x)
    (hq : q.toList = x.toList ++ ' ' :: cs) (hq' : q'.toList = x.toList ++ ' ' :: cs')
    (hread : Reads (.limited nestingLimit) (.call .betweenExpression) q.toList (matched d rest))
    (hread' : Reads (.limited nestingLimit) (.call .betweenExpression) q'.toList (matched d rest))
    (t : Node) : parse q = .ok t ↔ parse q' = .ok t := by
  have hnot : ∀ cs, Reads (.limited nestingLimit) (Peg.keyword "not") (x.toList ++ ' ' :: cs)
      (halted .failed) := by
    intro cs
    refine .keyword_failed (by decide) ?_
    rw [takeWhile_word (name_identifierChars hx) rfl]
    exact hx.not_not
  have hahead : ∀ cs, ahead (x.toList ++ ' ' :: cs) = x.toList ++ ' ' :: cs := fun cs =>
    solid_name hx _
  have hagrees : (Peg.call .grammar).Agrees (.limited nestingLimit) q.toList q'.toList :=
    .grammar (.of_reads hread hread') (hq ▸ hahead cs) (hq' ▸ hahead cs')
      (.of_reads (hq ▸ hnot cs) (hq' ▸ hnot cs'))
  have hagrees' : (Peg.call .grammar).Agrees (.limited nestingLimit) q'.toList q.toList :=
    .grammar (.of_reads hread' hread) (hq' ▸ hahead cs') (hq ▸ hahead cs)
      (.of_reads (hq' ▸ hnot cs') (hq ▸ hnot cs))
  rw [parse_eq_ok_iff, parse_eq_ok_iff]
  constructor
  · rintro ⟨d, hgrammar, hd⟩
    exact ⟨d, hagrees hgrammar, hd⟩
  · rintro ⟨d, hgrammar, hd⟩
    exact ⟨d, hagrees' hgrammar, hd⟩

/-- The two ways to write a range are the same query, unless the text goes on with `and` and a
value: then the pair is the first of two bounds. -/
theorem parse_wordRange_iff {x low high tail : String} {op : Operator} (hx : IsName x)
    (hop : op.isRange = true) (hlow : IsLiteral low.toList) (hhigh : IsLiteral high.toList)
    (htail : ∀ c ∈ tail.toList.head?, c = ' ') (hcontinues : ¬ ContinuesRange tail.toList)
    (t : Node) :
    parse (wordRange x op low high tail) = .ok t ↔ parse (pairRange x op low high tail) = .ok t := by
  obtain ⟨d, hprimary⟩ := Reads.primary_name hx
  obtain ⟨l, hreadsLow⟩ := hlow.standsFor
  obtain ⟨h, hreadsHigh⟩ := hhigh.standsFor
  have hend : EndsToken tail.toList := fun c hc => htail c hc ▸ by decide
  have hwords : (wordRange x op low high tail).toList =
      x.toList ++ ' ' :: (op.spell .word ++ ' ' ::
        (low.toList ++ ' ' :: ("and".toList ++ ' ' :: (high.toList ++ tail.toList)))) := by
    simp [wordRange, Operator.spell]
  have hpair : (pairRange x op low high tail).toList =
      x.toList ++ ' ' :: (op.spell .word ++ ' ' ::
        ('[' :: (low.toList ++ ',' :: ' ' :: (high.toList ++ ']' :: tail.toList)))) := by
    simp [pairRange, Operator.spell]
  have hreadsWords : Reads (.limited nestingLimit) (.call .betweenExpression)
      (wordRange x op low high tail).toList
      (matched (.between d op (.literal l) (.literal h)) tail.toList) := by
    rw [hwords]
    exact .between_bounds (hprimary (endsToken_cons (by decide))) hop (hlow.solid _)
      (.bounds_words (hreadsLow.value (endsToken_cons (by decide))) hhigh.solid
        (hreadsHigh.value hend))
  have hreadsPair : Reads (.limited nestingLimit) (.call .betweenExpression)
      (pairRange x op low high tail).toList
      (matched (.between d op (.literal l) (.literal h)) tail.toList) := by
    rw [hpair]
    exact .between_bounds (hprimary (endsToken_cons (by decide))) hop (ahead_firm (by decide) _)
      (.bounds_pair hlow hhigh hreadsLow hreadsHigh hcontinues)
  exact parse_iff_of_range hx hwords hpair hreadsWords hreadsPair t

theorem parse_wordRange_iff_conjunction : ∃ t,
    parse (wordRange "null" .notBetween "TRUE" "-1.5" " and b") = .ok t ∧
      parse (pairRange "null" .notBetween "TRUE" "-1.5" " and b") = .ok t := by
  have hname : IsName "null" := ⟨⟨'n', ['u', 'l', 'l'], rfl, rfl,
    List.all_eq_true.mp (by decide)⟩, by decide⟩
  have hcontinues : ¬ ContinuesRange " and b".toList := by
    rintro ⟨d, rest, hread⟩
    have hfailed : Reads .unlimited (Peg.before (Peg.keyword "and")
        (Peg.before Peg.gap (.call .value))) ("and".toList ++ " b".toList) (halted .failed) :=
      .seqRight (.keyword rfl) (.pastGap (.value_failed (by decide) rfl))
    cases hread.unique (.pastGap hfailed)
  obtain ⟨t, ht, -⟩ := exists_of_parse (wordRange "null" .notBetween "TRUE" "-1.5" " and b")
    (fun _ => true) (by decide +kernel)
  have hspell : (Value.decimal (.ofMagnitude true ⟨15, 1, by decide, by decide⟩)).spell =
      "-1.5".toList := by decide +kernel
  refine ⟨t, ht, (parse_wordRange_iff hname rfl ?_ ?_ (by simp) hcontinues t).mp ht⟩
  · exact .literalWord (by decide)
  · exact hspell ▸ .spell trivial

/-- Without the condition on what follows the two ways differ: the pair `[1, 2]` is the first bound
of `x between [1, 2] and 5`. -/
theorem parse_wordRange_and_value :
    ¬ ∀ (x tail : String) (low high : Value) (op : Operator) (t : Node),
      IsName x → op.isRange = true → low.IsScalar → high.IsScalar →
      (∀ c ∈ tail.toList.head?, c = ' ') →
      (parse (wordRange x op (String.ofList low.spell) (String.ofList high.spell) tail) = .ok t ↔
        parse (pairRange x op (String.ofList low.spell) (String.ofList high.spell) tail) =
          .ok t) := by
  intro h
  have hname : IsName "x" := ⟨⟨'x', [], rfl, rfl, by simp⟩, by decide⟩
  obtain ⟨t, hwords, ht⟩ := exists_of_parse (wordRange "x" .between
    (String.ofList (Value.int 1).spell) (String.ofList (Value.int 2).spell) " and 5")
    (fun t => t.kind == .logic) (by decide +kernel)
  obtain ⟨t', hpair, ht'⟩ := exists_of_parse (pairRange "x" .between
    (String.ofList (Value.int 1).spell) (String.ofList (Value.int 2).spell) " and 5")
    (fun t => t.kind == .between) (by decide +kernel)
  have hsame := (h "x" " and 5" (.int 1) (.int 2) .between t hname rfl trivial trivial
    (by simp)).mp hwords
  rw [hpair, Except.ok.injEq] at hsame
  subst hsame
  simp only [beq_iff_eq] at ht ht'
  simp [ht] at ht'

end FilterQuery
