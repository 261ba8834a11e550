import FilterQuery.Proofs.Behind

/-!
What the grammar is made of. Its tokens are gaps, strings, numbers, arrows, the end of the text, and
every expression without a character at which a gap, a string or a sign may begin. All the rest is
put together from tokens. So a trait that the tokens have, and that putting expressions together
keeps, is a trait of the whole grammar, whatever room there is for brackets.
-/
namespace FilterQuery.Grammar

/-- The characters with which gaps, strings and signs begin. -/
def turns : List Char := [' ', '\t', '\n', '\r', '-', '/', '\'', '"']

/-- No class of characters in the expression has one of the turns. -/
def Peg.isPlain {α : Type} (p : Peg α) : Bool := turns.all (p.avoids ·)

/-- A property of expressions, given how much room there is. -/
abbrev Trait := {α : Type} → Room → Peg α → Prop

/-- A trait of the tokens that putting expressions together keeps. -/
structure Trait.Pervades (P : Trait) : Prop where
  plain {α : Type} {room : Room} {p : Peg α} : p.isPlain = true → P room p
  gap {room : Room} : P room Peg.gap
  someGap {room : Room} : P room Peg.someGap
  quoted {room : Room} : P room Peg.quoted
  number {room : Room} : P room Peg.number
  arrow {room : Room} : P room (Peg.text "->")
  endOfText {room : Room} : P room Peg.endOfText
  seq {α β γ : Type} {room : Room} {f : α → β → γ} {p : Peg α} {q : Peg β} :
    P room p → P room q → P room (.seq f p q)
  choice {α : Type} {room : Room} {p q : Peg α} : P room p → P room q → P room (.choice p q)
  star {α β : Type} {room : Room} {f : List α → β} {p : Peg α} : P room p → P room (.star f p)
  deeper {α : Type} {room : Room} {p : Peg α} :
    (∀ inner, room.inner? = some inner → P inner p) → P room (.deeper p)
  call {α : Type} {room : Room} {s : Symbol α} : P room s.body → P room (.call s)

/-- Every word of the spelling is plain, or the symbol is. -/
def Spelling.readsPlain : Spelling → Bool
  | symbol t => (Peg.text t).isPlain
  | phrase words => words.all fun w => (Peg.keyword w).isPlain

theorem slots_plainly_spelled : ∀ slot ∈ [Slot.compare, .logic, .oneOf, .test],
    slot ≠ [] ∧ ∀ s ∈ slot, s.readsPlain = true := by
  decide

namespace Trait.Pervades

variable {P : Trait} {α β : Type} {room : Room} {p : Peg α} {q : Peg β}

section

variable (hP : Pervades @P)

include hP

theorem pure (a : α) : P room (.pure a) := hP.plain (List.all_eq_true.mpr fun _ _ => rfl)

theorem map {f : α → β} (hp : P room p) : P room (p.map f) := hP.seq hp (hP.pure ())

theorem optional (hp : P room p) : P room p.optional := hP.choice (hP.map hp) (hP.pure none)

theorem gapBefore (hp : P room p) : P room (Peg.before Peg.gap p) := hP.seq hP.gap hp

theorem firstOf {ps : List (Peg α)} (hne : ps ≠ []) (hps : ∀ p ∈ ps, P room p) :
    P room (Peg.firstOf ps) := by
  fun_induction Peg.firstOf ps with
  | case1 => exact absurd rfl hne
  | case2 p => exact hps p (List.mem_singleton_self p)
  | case3 p ps hps' ih =>
    obtain ⟨hp, hrest⟩ := List.forall_mem_cons.mp hps
    exact hP.choice hp (ih (by simpa using hps') hrest)

/-! ## Operators -/

theorem phrase {words : List String} (hwords : ∀ w ∈ words, (Peg.keyword w).isPlain = true) :
    P room (Peg.phrase words) := by
  induction words with
  | nil => exact hP.pure ()
  | cons word words ih =>
    obtain ⟨hword, hwords⟩ := List.forall_mem_cons.mp hwords
    cases words with
    | nil => exact hP.plain hword
    | cons => exact hP.seq (hP.plain hword) (hP.seq hP.someGap (ih hwords))

theorem slot {slot : Slot} (hslot : slot ∈ [Slot.compare, .logic, .oneOf, .test]) :
    P room slot.peg := by
  obtain ⟨hne, hplain⟩ := slots_plainly_spelled slot hslot
  refine hP.firstOf (by simpa using hne) fun p hp => ?_
  obtain ⟨s, hs, rfl⟩ := List.mem_map.mp hp
  have hs := hplain s hs
  cases s with
  | symbol t => exact hP.map (hP.plain hs)
  | phrase words => exact hP.map (hP.phrase (List.all_eq_true.mp hs))

theorem compare : P room (.call .compare) :=
  hP.call (hP.gapBefore (hP.seq (hP.slot (by decide)) hP.gap))

theorem logic : P room (.call .logic) :=
  hP.call (hP.gapBefore (hP.seq (hP.slot (by decide)) hP.gap))

theorem test : P room (.call .test) :=
  hP.call (hP.seq hP.someGap (hP.seq (hP.slot (by decide)) hP.gap))

theorem range : P room Peg.range :=
  hP.seq (hP.optional (hP.seq (hP.plain (by decide)) hP.someGap)) (hP.plain (by decide))

/-! ## Values and references -/

theorem identifier : P room (.call .identifier) := hP.call (hP.plain (by decide))

theorem literal : P room (.call .literal) := by
  have hwords : ∀ w ∈ literalWords, (Peg.exactWord w).isPlain = true := by decide
  have hword : ∀ w ∈ literalWords, ∀ l : Literal,
      P room (Peg.map (fun _ => l) (Peg.exactWord w)) :=
    fun w hw _ => hP.map (hP.plain (hwords w hw))
  exact hP.call <|
    hP.choice (hword "null" (by decide) .null) <|
    hP.choice (hword "NULL" (by decide) .null) <|
    hP.choice (hword "true" (by decide) (.bool true)) <|
    hP.choice (hword "TRUE" (by decide) (.bool true)) <|
    hP.choice (hword "false" (by decide) (.bool false)) <|
    hP.choice (hword "FALSE" (by decide) (.bool false)) <|
    hP.choice (hP.map hP.quoted) hP.number

theorem commaList (hp : P room p) : P room p.commaList := by
  have hcomma : P room (Peg.text ",") := hP.plain (by decide)
  have hothers : P room (Peg.many (Peg.before Peg.gap (Peg.before (Peg.text ",")
      (Peg.before Peg.gap p)))) :=
    hP.star (hP.gapBefore (hP.seq hcomma (hP.gapBefore hp)))
  exact hP.map (hP.optional
    (hP.seq hp (hP.seq hothers (hP.gapBefore (hP.optional hcomma)))))

/-- Something between brackets, with gaps inside of them. -/
theorem enclosed {opening closing : String} (hopening : (Peg.text opening).isPlain = true)
    (hclosing : (Peg.text closing).isPlain = true) (hp : P room p) :
    P room (Peg.before (Peg.text opening) (Peg.before Peg.gap
      (Peg.followedBy p (Peg.before Peg.gap (Peg.text closing))))) :=
  hP.seq (hP.plain hopening)
    (hP.gapBefore (hP.seq hp (hP.gapBefore (hP.plain hclosing))))

theorem array : P room (.call .array) := by
  have hlist : P room (Peg.commaList (.call .literal)) := hP.commaList hP.literal
  exact hP.call (hP.choice (hP.enclosed (by decide) (by decide) hlist)
    (hP.enclosed (by decide) (by decide) hlist))

theorem value : P room (.call .value) :=
  hP.call (hP.choice (hP.map hP.literal) (hP.map hP.array))

theorem bounds : P room Peg.bounds := by
  have hword : P room (Peg.keyword "and") := hP.plain (by decide)
  have hcomma : P room (Peg.text ",") := hP.plain (by decide)
  have hclosed : P room (Peg.followedBy (.call .value) (Peg.before Peg.gap (Peg.text "]"))) :=
    hP.seq hP.value (hP.gapBefore (hP.plain (by decide)))
  refine hP.choice ?_ ?_
  · exact hP.seq hP.value (hP.gapBefore (hP.seq hword (hP.gapBefore hP.value)))
  · exact hP.seq (hP.plain (by decide)) (hP.gapBefore (hP.seq hP.value
      (hP.gapBefore (hP.seq hcomma (hP.gapBefore hclosed)))))

theorem reference : P room (.call .reference) := by
  have hdot : P room (Peg.step .dot) := hP.seq (hP.plain (by decide)) hP.identifier
  have harrow : P room (Peg.step .arrow) := hP.seq hP.arrow hP.identifier
  exact hP.call (hP.map (hP.seq hP.identifier (hP.seq (hP.star hdot) (hP.star harrow))))

/-! ## Expressions -/

variable (hinner : P room (.deeper (.call .expression)))
  (harguments : P room (.deeper (Peg.commaList (.call .argument))))

include hinner harguments

theorem primary : P room (.call .primaryExpression) := by
  have hlist : P room (.call .argumentList) :=
    hP.call (hP.enclosed (by decide) (by decide) harguments)
  exact hP.call (hP.choice (hP.map (hP.enclosed (by decide) (by decide) hinner))
    (hP.choice hP.value (hP.choice (hP.seq hP.identifier hlist) hP.reference)))

theorem membership : P room (.call .compareInExpression) := by
  have hbetween : P room (.call .betweenExpression) :=
    hP.call (hP.seq (hP.primary hinner harguments)
      (hP.optional (hP.gapBefore (hP.seq hP.range (hP.gapBefore hP.bounds)))))
  have hpredicate : P room (.call .predicateExpression) :=
    hP.call (hP.seq hbetween (hP.optional hP.test))
  exact hP.call (hP.seq hpredicate
    (hP.optional (hP.gapBefore (hP.seq (hP.slot (by decide)) (hP.gapBefore hP.array)))))

theorem expressionOver : P room (.call .expression) := by
  have hmembership : P room (.call .compareInExpression) := hP.membership hinner harguments
  have hcomparison : P room (.call .compareExpression) :=
    hP.call (hP.seq hmembership (hP.star (hP.seq hP.compare hmembership)))
  have hnot : P room (Peg.keyword "not") := hP.plain (by decide)
  have hnegation : P room (.call .notExpression) :=
    hP.call (hP.choice hcomparison
      (hP.map (hP.gapBefore (hP.seq hnot (hP.gapBefore hcomparison)))))
  exact hP.call (hP.call (hP.seq hnegation (hP.star (hP.seq hP.logic hnegation))))

end

/-- By induction on the levels of brackets that there is room for. -/
theorem expression (hP : Pervades @P) (levels : Nat) :
    P (.limited levels) (.call .expression) := by
  induction levels with
  | zero => exact hP.expressionOver (hP.deeper nofun) (hP.deeper nofun)
  | succ levels ih =>
    refine hP.expressionOver (hP.deeper ?_) (hP.deeper ?_)
    · rintro _ ⟨⟩
      exact ih
    · rintro _ ⟨⟩
      exact hP.commaList (hP.call ih)

theorem grammar (hP : Pervades @P) (levels : Nat) : P (.limited levels) (.call .grammar) :=
  hP.call (hP.gapBefore (hP.seq (hP.expression levels) (hP.gapBefore hP.endOfText)))

end Trait.Pervades

end FilterQuery.Grammar
