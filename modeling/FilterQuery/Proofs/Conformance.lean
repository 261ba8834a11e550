import FilterQuery.Parse
import FilterQuery.Proofs.Effects
import FilterQuery.Proofs.Folding

/-!
The rules of the query grammar realize the grammar. Each rule is taken apart along the grammar, one
lemma for each symbol, and the expressions inside brackets are reached by induction on the levels
that are left. A parse that does not hit the nesting limit therefore follows the grammar.
-/
namespace FilterQuery.Grammar

open Scanner Result Assembly

namespace Realizes

variable {α β : Type} {r : Rule} {room : Room} {p : Peg α} {e : α → Assembly → Assembly}

/-! ## Parts that many rules share -/

theorem gap : Realizes Rule.gap room Peg.gap fun _ m => m := expect gap_obeys

theorem text (t : String) : Realizes (Rule.text t) room (Peg.text t) fun _ m => m :=
  expect (literal_obeys t)

theorem word (w : String) :
    Realizes (Rule.expect (Terminal.keyword w)) room (Peg.keyword w) fun _ m => m :=
  expect (keyword_obeys w)

/-- A rule without an effect before another one. -/
theorem before {r' : Rule} {q : Peg β} (hr : Realizes r room p fun _ m => m)
    {e' : β → Assembly → Assembly} (hr' : Realizes r' room q e') :
    Realizes (.andThen r r') room (p.before q) e' :=
  hr.andThen (fun _ m => .refl m) hr' fun _ _ _ => rfl

/-- A rule without a value of its own after another one. -/
theorem followedBy {r' : Rule} {q : Peg β} (hr : Realizes r room p e)
    (hext : ∀ a (m : Assembly), m.Extends (e a m)) {f : Assembly → Assembly}
    (hr' : Realizes r' room q fun _ m => f m) :
    Realizes (.andThen r r') room (p.followedBy q) fun a m => f (e a m) :=
  hr.andThen hext hr' fun _ _ _ => rfl

theorem commaList (hr : Realizes r room p e) (hext : ∀ a (m : Assembly), m.Extends (e a m)) :
    Realizes (Rule.commaList r) room p.commaList (each e) := by
  have hcomma : (Peg.before Peg.gap (Peg.before (Peg.text ",") (Peg.before Peg.gap p))).Consumes :=
    Peg.Consumes.seqRight (Peg.Consumes.seqLeft (Peg.Consumes.likeness (by decide)))
  have hmany := Realizes.many (gap.before ((text ",").before (gap.before hr))) hcomma
  have hend : Realizes (.andThen Rule.gap (Rule.optional (Rule.text ","))) room
      (Peg.before Peg.gap (Peg.optional (Peg.text ","))) fun _ m => m :=
    gap.before ((text ",").optional.congr fun a _ => by cases a <;> rfl)
  have hlist : Realizes (Rule.seq [r, .many (Rule.seq [Rule.gap, Rule.text ",", Rule.gap, r]),
      Rule.gap, Rule.optional (Rule.text ",")]) room _ (each e) :=
    hr.andThen (f := fun a as => a :: as) hext (hmany.followedBy (extends_each hext) hend)
      fun _ _ _ => rfl
  exact hlist.optional.map fun as _ => by cases as <;> rfl

/-- Operands with operators between them, where the action makes a draft of two others. -/
theorem chain {r' : Rule} {p : Peg Draft} {q : Peg Operator} {fold : Action}
    {make : Draft → Operator → Draft → Draft} (hr : Realizes r room p putDraft)
    (hr' : Realizes r' room q putOperator) (hq : q.Consumes)
    (hfold : ∀ l op d m, (putDraft d (putOperator op (putDraft l m))).perform fold =
      putDraft (make l op d) m) :
    Realizes (Rule.chain r r' fold) room
      (.seq (Draft.foldLeft make) p (Peg.many (Peg.pair q p))) putDraft := by
  have hpart : Realizes (Rule.seq [r', r, .act fold]) room (Peg.pair q p)
      fun part m => (putDraft part.2 (putOperator part.1 m)).perform fold :=
    hr'.andThen (fun op m => extends_put m _ _) (hr.thenAct fold) fun _ _ _ => rfl
  refine hr.andThen (fun d m => extends_put m _ _) (hpart.many (Peg.Consumes.seqLeft hq)) ?_
  intro d parts m
  induction parts generalizing d with
  | nil => rfl
  | cons part parts ih =>
    have hrest := ih (make d part.1 part.2)
    simp only [Draft.foldLeft, each, List.foldl_cons] at hrest ⊢
    rw [hfold, hrest]

end Realizes

variable {room : Room}

/-! ## Literals and arrays -/

theorem perform_numeral (n : Terminal.Numeral) (m : Assembly) :
    m.perform (numeralAction n) = putLiteral (numeralLiteral n) m := by
  cases n with
  | integer text =>
    simp only [numeralAction, numeralLiteral, perform, effect, addInteger, putLiteral,
      Literal.value, Literal.fault?, Literal.convert]
    cases Number.Integer.read (String.ofList text).toList <;> rfl
  | decimal text =>
    simp only [numeralAction, numeralLiteral, perform, effect, addDecimal, putLiteral,
      Literal.value, Literal.fault?, Literal.convert]
    cases Number.Decimal.read (String.ofList text).toList <;> rfl

/-- A word that is a literal. -/
theorem exactly_realizes (word : String) (a : Action) (l : Literal)
    (ha : ∀ m : Assembly, m.perform a = putLiteral l m) :
    RealizesExactly (exactly word a) room (Peg.map (fun _ => l) (Peg.exactWord word))
      putLiteral := by
  have hword : RealizesExactly (exactly word a) room (Peg.exactWord word)
      fun _ m => m.perform a := Realizes.capture (exactWord_obeys word) fun _ _ => rfl
  exact hword.map fun _ m => (ha m).symm

theorem literal_realizes : RealizesExactly literal room (.call .literal) putLiteral := by
  have hquoted : RealizesExactly (Rule.capture Terminal.quoted .string) room Peg.quoted
      fun s m => putLiteral (.string s) m := Realizes.capture quoted_obeys fun _ _ => rfl
  have hnumber : RealizesExactly (Rule.capture Terminal.number numeralAction) room Peg.number
      putLiteral := Realizes.capture number_obeys fun _ m => perform_numeral _ m
  refine Realizes.named "Literal" (RealizesExactly.toRealizes ?_)
  refine (exactly_realizes "null" .null .null fun _ => rfl).orElse ?_
  refine (exactly_realizes "NULL" .null .null fun _ => rfl).orElse ?_
  refine (exactly_realizes "true" _ (.bool true) fun _ => rfl).orElse ?_
  refine (exactly_realizes "TRUE" _ (.bool true) fun _ => rfl).orElse ?_
  refine (exactly_realizes "false" _ (.bool false) fun _ => rfl).orElse ?_
  refine (exactly_realizes "FALSE" _ (.bool false) fun _ => rfl).orElse ?_
  exact (hquoted.map fun _ _ => rfl).orElse hnumber

theorem bracketed_realizes (opening closing : String) :
    RealizesExactly (bracketed opening closing) room (Peg.bracketed opening closing)
      putArray := by
  have hclose : Realizes (Rule.seq [Rule.gap, Rule.text closing, .act .array]) room
      (Peg.before Peg.gap (Peg.text closing)) fun _ m => m.perform .array :=
    Realizes.gap.before ((Realizes.text closing).thenAct .array)
  have hlist := (literal_realizes.commaList fun l m => extends_put m _ _).followedBy
    (extends_each fun l m => extends_put m _ _) hclose
  have hbody := (Realizes.text opening).before
    ((Realizes.gap.before hlist).actThen .mark extends_mark)
  exact (hbody.congr fun ls m => (perform_array ls m).symm).attempt

theorem array_realizes : RealizesExactly array room (.call .array) putArray :=
  Realizes.named "Array" ((bracketed_realizes "[" "]").orElse (bracketed_realizes "(" ")")).toRealizes

theorem value_realizes : RealizesExactly value room (.call .value) putDraft := by
  have hliteral : RealizesExactly literal room (Peg.map Draft.literal (.call .literal))
      putDraft := by
    refine literal_realizes.map fun l m => ?_
    simp [putDraft, putLiteral, Draft.build]
  exact Realizes.named "Value" (hliteral.orElse (array_realizes.map fun _ _ => rfl)).toRealizes

/-! ## Names -/

theorem identifier_realizes : RealizesExactly identifier room (.call .identifier) putName :=
  Realizes.named "Identifier" (Realizes.capture name_obeys fun _ _ => rfl).toRealizes

theorem step_realizes (accessor : Accessor) :
    Realizes (Rule.seq [Rule.text accessor.text, identifier]) room (Peg.step accessor) putName :=
  (Realizes.text accessor.text).before identifier_realizes.toRealizes

theorem step_consumes (accessor : Accessor) : (Peg.step accessor).Consumes := by
  refine Peg.Consumes.seqLeft (Peg.Consumes.likeness ?_)
  cases accessor <;> decide

theorem reference_realizes : RealizesExactly reference room (.call .reference) putDraft := by
  have hsteps : Realizes (.tally (Rule.seq [Rule.text ".", identifier])
      (Rule.seq [Rule.text "->", identifier]) fun dots arrows =>
        .reference (List.replicate dots .dot ++ List.replicate arrows .arrow)) room
      (Peg.seq Draft.pathSteps (Peg.many (Peg.step .dot)) (Peg.many (Peg.step .arrow)))
      fun steps m => (each putName (steps.map Prod.snd) m).perform
        (.reference (steps.map Prod.fst)) := by
    refine (step_realizes .dot).tally (step_consumes .dot) (step_realizes .arrow)
      (step_consumes .arrow) fun dots arrows m => ?_
    simp [Draft.pathSteps, each, Function.comp_def]
  have hpath := identifier_realizes.toRealizes.andThen (f := Prod.mk)
    (d := fun path m => (each putName (path.1 :: path.2.map Prod.snd) m).perform
      (.reference (path.2.map Prod.fst)))
    (fun name m => extends_put m _ _) hsteps fun _ _ _ => rfl
  have hmarked := (hpath.actThen .mark extends_mark).congr
    (d := fun path => putDraft (Draft.ofPath path.1 path.2))
    fun path m => (perform_reference path.1 path.2 m).symm
  exact Realizes.named "Reference" (hmarked.map fun _ _ => rfl)

/-! ## Operators -/

/-- A spelling that is not empty and in ASCII. -/
def Spelling.isPlain : Spelling → Bool
  | symbol text => text ≠ ""
  | phrase [] => false
  | phrase (word :: words) => word ≠ "" && (joinWords (word :: words)).all isAscii

theorem slots_plain :
    ∀ slot ∈ [Slot.compare, .logic, .oneOf, .between, .test], ∀ s ∈ slot, s.isPlain := by
  decide

theorem spelling_obeys (s : Spelling) : Obeys s.terminal s.peg fun _ => s.operator := by
  cases s with
  | symbol text =>
    have htext : Obeys (Spelling.symbol text).terminal (Peg.text text) fun _ => () :=
      (literal_obeys text).map _ _ fun _ => rfl
    exact htext.mapped _
  | phrase words => exact (phrase_obeys words).mapped _

/-- A text that matches the spelling, in any letter case, stands for its operator. -/
theorem ofSpelling_found {s : Spelling} (hs : s.isPlain) {cs raw lexeme rest : List Char}
    (h : s.terminal cs = .found raw lexeme rest) :
    Operator.ofSpelling (String.ofList raw) = s.operator := by
  cases s with
  | symbol text =>
    have hraw : text.toList = raw := by
      simp only [Spelling.terminal, Terminal.map] at h
      split at h
      · injection h with hraw _ _
      · simp at h
    rw [← hraw, String.ofList_toList, Spelling.operator]
  | phrase words =>
    have hascii : ∀ c ∈ joinWords words, isAscii c = true := by
      cases words with
      | nil => simp [Spelling.isPlain] at hs
      | cons word words =>
        simp only [Spelling.isPlain, Bool.and_eq_true, List.all_eq_true] at hs
        exact hs.2
    have hfold := Operator.fold_eq_of_toLower hascii (phrase_sameLetters h)
    simp [Spelling.operator, Operator.ofSpelling, hfold]

theorem spelling_realizes {s : Spelling} (hs : s.isPlain) :
    RealizesExactly (Rule.capture s.terminal fun raw => .operation (String.ofList raw)) room
      s.peg putOperator := by
  refine Realizes.capture (spelling_obeys s) fun h m => ?_
  simp [perform, effect, apply, Effect.push, putOperator, put, ofSpelling_found hs h]

theorem spelling_consumes {s : Spelling} (hs : s.isPlain) : s.peg.Consumes := by
  have hword : ∀ {word : String} {same : Char → Char → Bool}, word ≠ "" →
      (Peg.likeness same word.toList).Consumes := fun hne =>
    Peg.Consumes.likeness fun hnil => hne (String.toList_eq_nil_iff.mp hnil)
  match s, hs with
  | .symbol text, hs => exact Peg.Consumes.seqLeft (hword (by simpa [Spelling.isPlain] using hs))
  | .phrase [word], hs =>
    refine Peg.Consumes.seqLeft (Peg.Consumes.seqLeft (hword ?_))
    simp only [Spelling.isPlain, Bool.and_eq_true, decide_eq_true_eq] at hs
    exact hs.1
  | .phrase (word :: _ :: _), hs =>
    refine Peg.Consumes.seqLeft (Peg.Consumes.seqLeft (Peg.Consumes.seqLeft (hword ?_)))
    simp only [Spelling.isPlain, Bool.and_eq_true, decide_eq_true_eq] at hs
    exact hs.1

variable {slot : Slot}

theorem operator_realizes (hslot : ∀ s ∈ slot, s.isPlain) :
    RealizesExactly (Rule.operator slot) room slot.peg putOperator :=
  .choiceOf fun s hs => spelling_realizes (hslot s hs)

theorem slot_consumes (hslot : ∀ s ∈ slot, s.isPlain) : slot.peg.Consumes := by
  refine Peg.Consumes.firstOf fun p hp => ?_
  obtain ⟨s, hs, rfl⟩ := List.mem_map.mp hp
  exact spelling_consumes (hslot s hs)

/-- An operator with gaps around it. -/
theorem spacedOperator_realizes {gap : Rule} {p : Peg Unit}
    (hgap : Realizes gap room p fun _ m => m) (hslot : ∀ s ∈ slot, s.isPlain) :
    Realizes (Rule.seq [gap, Rule.operator slot, Rule.gap]) room
      (p.before (slot.peg.followedBy Peg.gap)) putOperator :=
  hgap.before ((operator_realizes hslot).followedBy (fun _ m => extends_put m _ _)
    (f := id) Realizes.gap)

theorem compareOperator_realizes :
    RealizesExactly compareOperator room (.call .compare) putOperator :=
  Realizes.named "Compare" (spacedOperator_realizes Realizes.gap (slots_plain .compare (by simp)))

theorem logicOperator_realizes :
    RealizesExactly logicOperator room (.call .logic) putOperator :=
  Realizes.named "Logic" (spacedOperator_realizes Realizes.gap (slots_plain .logic (by simp)))

theorem testOperator_realizes :
    RealizesExactly testOperator room (.call .test) putOperator :=
  Realizes.named "Match"
    (spacedOperator_realizes (.expect someGap_obeys) (slots_plain .test (by simp)))

theorem Reads.between_failed {cs rest : List Char}
    (h : Reads room (Peg.keyword "not") cs (matched () rest)) :
    Reads room (Peg.keyword "between") cs (halted .failed) := by
  obtain ⟨c, tail, rfl, hc⟩ : ∃ c tail, cs = c :: tail ∧ Terminal.sameLetter 'n' c = true := by
    cases h with
    | seq hletters hend =>
      have hnot : "not".toList = ['n', 'o', 't'] := rfl
      rw [hnot] at hletters
      cases hletters with
      | seq hfirst hothers =>
        cases hfirst with
        | char hc => exact ⟨_, _, rfl, hc⟩
  have hother : Terminal.sameLetter 'b' c = false := by
    have hlower : 'n'.toLower = c.toLower := eq_of_beq hc
    rw [Terminal.sameLetter, ← hlower]
    decide
  exact .seqLeft (.seqLeft (.charOther hother))

/-- A slot tries the two spellings in full, the grammar the word `not` first. They read the same,
since no text begins with both words. -/
theorem Reads.range {cs : List Char} {o : Result Operator}
    (h : Reads room Slot.between.peg cs o) : Reads room Peg.range cs o := by
  suffices hboth : ∃ o', Reads room Slot.between.peg cs o' ∧ Reads room Peg.range cs o' by
    obtain ⟨o', hslot, hrange⟩ := hboth
    exact h.unique hslot ▸ hrange
  have hlong : (Spelling.phrase ["not", "between"]).operator = .notBetween := by decide
  have hshort : (Spelling.phrase ["between"]).operator = .between := by decide
  have hplain : Reads room (Peg.phrase ["not", "between"]) cs (halted .failed) →
      Reads room (Peg.before (Peg.keyword "not") Peg.someGap) cs (halted .failed) →
        ∃ o', Reads room Slot.between.peg cs o' ∧ Reads room Peg.range cs o' := by
    intro hphrase hnegation
    rcases (keyword_obeys "between").total room cs with ⟨⟨⟩, rest, hbetween⟩ | hbetween
    · exact ⟨matched .between rest, .choiceRight (.seqLeft hphrase) (hshort ▸ .map _ hbetween),
        .seq (.optionalNone hnegation) hbetween⟩
    · exact ⟨_, .choiceRight (.seqLeft hphrase) (.seqLeft hbetween),
        .seqRight (.optionalNone hnegation) hbetween⟩
  rcases (keyword_obeys "not").total room cs with ⟨⟨⟩, mid, hnot⟩ | hnot
  · rcases someGap_obeys.total room mid with ⟨⟨⟩, mid', hgap⟩ | hgap
    · rcases (keyword_obeys "between").total room mid' with ⟨⟨⟩, rest, hbetween⟩ | hbetween
      · exact ⟨matched .notBetween rest,
          .choiceLeft (hlong ▸ .map _ (.seq hnot (.seq hgap hbetween))),
          .seq (.optionalSome (.seq hnot hgap)) hbetween⟩
      · exact ⟨_, .choiceRight (.seqLeft (.seqRight hnot (.seqRight hgap hbetween)))
          (.seqLeft (.between_failed hnot)), .seqRight (.optionalSome (.seq hnot hgap)) hbetween⟩
    · exact hplain (.seqRight hnot (.seqLeft hgap)) (.seqRight hnot hgap)
  · exact hplain (.seqLeft hnot) (.seqLeft hnot)

/-! ## Expressions inside brackets -/

/-- The expression that a primary may hold in brackets, if the room allows one. -/
def Provides (deeper : Option Rule) (room : Room) : Prop :=
  match deeper with
  | none => room.inner? = none
  | some r => ∃ inner, room.inner? = some inner ∧
      RealizesExactly r inner (.call .expression) putDraft

variable {deeper : Option Rule}

theorem nested_realizes {α : Type} {p : Peg α} {e : α → Assembly → Assembly}
    (body : Rule → Rule) (hdeeper : Provides deeper room)
    (hbody : ∀ {r : Rule} {inner : Room},
      RealizesExactly r inner (.call .expression) putDraft → Realizes (body r) inner p e) :
    Realizes (Rule.nested deeper body) room (.deeper p) e := by
  cases deeper with
  | none => exact .limit hdeeper
  | some r =>
    obtain ⟨inner, hroom, hr⟩ := hdeeper
    exact .deeper hroom (hbody hr)

theorem argumentList_realizes (hdeeper : Provides deeper room) :
    RealizesExactly (argumentList deeper) room (.call .argumentList) putArguments := by
  have hargument : ∀ {r : Rule} {inner : Room},
      RealizesExactly r inner (.call .expression) putDraft →
        Realizes (Rule.commaList (.named "Argument" r)) inner
          (Peg.commaList (.call .argument)) (each putDraft) := by
    intro r inner hr
    have hnamed : Realizes (.named "Argument" r) inner (.call .argument) putDraft :=
      (Realizes.named "Argument" hr.toRealizes).toRealizes
    exact hnamed.commaList fun d m => extends_put m _ _
  have hclose : Realizes (Rule.seq [Rule.gap, Rule.text ")", .act .arguments]) room
      (Peg.before Peg.gap (Peg.text ")")) fun _ m => m.perform .arguments :=
    Realizes.gap.before ((Realizes.text ")").thenAct .arguments)
  have hlist := (nested_realizes _ hdeeper hargument).followedBy
    (extends_each fun d m => extends_put m _ _) hclose
  have hbody := (Realizes.text "(").before
    (Realizes.gap.before (hlist.actThen .mark extends_mark))
  exact Realizes.named "ArgumentList"
    (hbody.congr fun ds m => (perform_arguments ds m).symm)

theorem parenthesized_realizes (hdeeper : Provides deeper room) :
    RealizesExactly (.attempt (Rule.seq [Rule.text "(", Rule.gap, Rule.nested deeper id, Rule.gap,
      Rule.text ")", .act .parentheses])) room
      (Peg.map Draft.parentheses (Peg.before (Peg.text "(") (Peg.before Peg.gap
        (Peg.followedBy (.deeper (.call .expression))
          (Peg.before Peg.gap (Peg.text ")")))))) putDraft := by
  have hclose : Realizes (Rule.seq [Rule.gap, Rule.text ")", .act .parentheses]) room
      (Peg.before Peg.gap (Peg.text ")")) fun _ m => m.perform .parentheses :=
    Realizes.gap.before ((Realizes.text ")").thenAct .parentheses)
  have hinner := (nested_realizes id hdeeper fun hr => hr.toRealizes).followedBy
    (fun d m => extends_put m _ _) hclose
  have hbody := (Realizes.text "(").before (Realizes.gap.before hinner)
  exact (hbody.map fun d m => (perform_parentheses d m).symm).attempt

theorem primary_realizes (hdeeper : Provides deeper room) :
    RealizesExactly (primary deeper) room (.call .primaryExpression) putDraft := by
  have hfunction : RealizesExactly (.attempt (Rule.seq [identifier, argumentList deeper,
      .act .function])) room
      (.seq Draft.function (.call .identifier) (.call .argumentList)) putDraft := by
    have harguments := (argumentList_realizes hdeeper).toRealizes.thenAct .function
    exact (identifier_realizes.toRealizes.andThen (fun name m => extends_put m _ _) harguments
      fun name ds m => (perform_function name ds m).symm).attempt
  refine Realizes.named "PrimaryExpression" (RealizesExactly.toRealizes ?_)
  exact (parenthesized_realizes hdeeper).orElse
    (value_realizes.orElse (hfunction.orElse reference_realizes))

/-! ## The layers of an expression -/

theorem rangeBounds_realizes : RealizesExactly rangeBounds room Peg.bounds
    fun bounds m => putDraft bounds.2 (putDraft bounds.1 m) := by
  have hvalue : Realizes value room (.call .value) putDraft := value_realizes.toRealizes
  have hext : ∀ (d : Draft) (m : Assembly), m.Extends (putDraft d m) :=
    fun d m => extends_put m _ _
  have hwords := hvalue.andThen (f := Prod.mk)
    (d := fun bounds m => putDraft bounds.2 (putDraft bounds.1 m)) hext
    (Realizes.gap.before ((Realizes.word "and").before (Realizes.gap.before hvalue)))
    fun _ _ _ => rfl
  have hclose : Realizes (Rule.seq [value, Rule.gap, Rule.text "]"]) room
      (Peg.followedBy (.call .value) (Peg.before Peg.gap (Peg.text "]"))) putDraft :=
    hvalue.followedBy (f := id) hext (Realizes.gap.before (Realizes.text "]"))
  have hpair := hvalue.andThen (f := Prod.mk)
    (d := fun bounds m => putDraft bounds.2 (putDraft bounds.1 m)) hext
    (Realizes.gap.before ((Realizes.text ",").before (Realizes.gap.before hclose)))
    fun _ _ _ => rfl
  exact hwords.attempt.orElse ((Realizes.text "[").before (Realizes.gap.before hpair)).attempt

variable {operand : Rule}

theorem between_realizes
    (ho : RealizesExactly operand room (.call .primaryExpression) putDraft) :
    RealizesExactly (between operand) room (.call .betweenExpression) putDraft := by
  have hoperator : Realizes (Rule.operator .between) room Peg.range putOperator :=
    (operator_realizes (slots_plain .between (by simp))).toRealizes.translate Reads.range
  have hrange := hoperator.andThen (f := Prod.mk) (d := fun range m =>
      (putDraft range.2.2 (putDraft range.2.1 (putOperator range.1 m))).perform .between)
    (fun op m => extends_put m _ _)
    (Realizes.gap.before (rangeBounds_realizes.toRealizes.thenAct .between)) fun _ _ _ => rfl
  refine Realizes.named "BetweenExpression" (ho.toRealizes.andThen
    (fun d m => extends_put m _ _) (Realizes.gap.before hrange).optional ?_)
  rintro d (- | ⟨op, low, high⟩) m
  · rfl
  · exact (perform_between d low high op m).symm

theorem predicate_realizes
    (ho : RealizesExactly operand room (.call .betweenExpression) putDraft) :
    RealizesExactly (predicate operand) room (.call .predicateExpression) putDraft := by
  refine Realizes.named "PredicateExpression" (ho.toRealizes.andThen
    (fun d m => extends_put m _ _)
    (testOperator_realizes.toRealizes.thenAct .predicate).optional ?_)
  rintro d (- | op) m
  · rfl
  · exact (perform_predicate d op m).symm

theorem membership_realizes
    (ho : RealizesExactly operand room (.call .predicateExpression) putDraft) :
    RealizesExactly (membership operand) room (.call .compareInExpression) putDraft := by
  have hoperator : Realizes (Rule.operator .oneOf) room Slot.oneOf.peg putOperator :=
    (operator_realizes (slots_plain .oneOf (by simp))).toRealizes
  have helements := hoperator.andThen (f := Prod.mk)
    (d := fun part m => (putArray part.2 (putOperator part.1 m)).perform .compare)
    (fun op m => extends_put m _ _)
    (Realizes.gap.before (array_realizes.toRealizes.thenAct .compare)) fun _ _ _ => rfl
  refine Realizes.named "CompareInExpression" (ho.toRealizes.andThen
    (fun d m => extends_put m _ _) (Realizes.gap.before helements).optional ?_)
  rintro d (- | ⟨op, elements⟩) m
  · rfl
  · exact (perform_compare d op (.array elements) m).symm

theorem spaced_consumes {p : Peg Unit} (hslot : ∀ s ∈ slot, s.isPlain) :
    (p.before (slot.peg.followedBy Peg.gap)).Consumes :=
  Peg.Consumes.seqRight (Peg.Consumes.seqLeft (slot_consumes hslot))

theorem comparison_realizes
    (ho : RealizesExactly operand room (.call .compareInExpression) putDraft) :
    RealizesExactly (comparison operand) room (.call .compareExpression) putDraft :=
  Realizes.named "CompareExpression" (ho.toRealizes.chain compareOperator_realizes.toRealizes
    (.call (spaced_consumes (slots_plain .compare (by simp)))) perform_compare)

theorem negation_realizes
    (ho : RealizesExactly operand room (.call .compareExpression) putDraft) :
    RealizesExactly (negation operand) room (.call .notExpression) putDraft := by
  have hnot := Realizes.gap.before ((Realizes.word "not").before
    (Realizes.gap.before (ho.toRealizes.thenAct .not)))
  exact Realizes.named "NotExpression"
    (ho.orElse (hnot.map fun d m => (perform_not d m).symm).attempt).toRealizes

theorem logic_realizes
    (ho : RealizesExactly operand room (.call .notExpression) putDraft) :
    RealizesExactly (logic operand) room (.call .logicExpression) putDraft :=
  Realizes.named "LogicExpression" (ho.toRealizes.chain logicOperator_realizes.toRealizes
    (.call (spaced_consumes (slots_plain .logic (by simp)))) perform_logic)

theorem expressionOver_realizes (hdeeper : Provides deeper room) :
    RealizesExactly (expressionOver deeper) room (.call .expression) putDraft :=
  Realizes.named "Expression" (logic_realizes (negation_realizes (comparison_realizes
    (membership_realizes (predicate_realizes (between_realizes
      (primary_realizes hdeeper))))))).toRealizes

/-- By induction on the levels of brackets that there is room for. -/
theorem expression_realizes (levels : Nat) :
    RealizesExactly (expression levels) (.limited levels) (.call .expression) putDraft := by
  induction levels with
  | zero => exact expressionOver_realizes rfl
  | succ levels ih => exact expressionOver_realizes ⟨.limited levels, rfl, ih⟩

theorem query_realizes (levels : Nat) :
    RealizesExactly (query levels) (.limited levels) (.call .grammar) putDraft :=
  Realizes.named "Grammar" (Realizes.gap.before ((expression_realizes levels).toRealizes.followedBy
    (f := id) (fun _ m => extends_put m _ _)
    (Realizes.gap.before (.expect endOfText_obeys))))

end FilterQuery.Grammar
