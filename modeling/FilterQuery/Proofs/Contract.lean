import FilterQuery.Proofs.Conformance

/-!
The contract of the rules. A rule that fails leaves the place, the assembly and the depth as they
were, and so does everything that is tried inside of it. A rule that matches has moved on to a
place further on in the text and has put exactly one operand on top of the old ones. This holds at
every point of a parse, also after the nesting limit was hit, where a rule no longer follows the
grammar.
-/
namespace FilterQuery

namespace Scanner.Cursor

open Text

/-- The cursor stands between two characters of the text, or at one of its ends. -/
def StandsIn (text : List Char) (c : Cursor) : Prop :=
  ∃ passed, text = passed ++ c.rest ∧ c.offset = byteSize passed

theorem start_standsIn (text : List Char) : (start text).StandsIn text := ⟨[], rfl, rfl⟩

theorem StandsIn.reaches {text : List Char} {c c' : Cursor} (h : c.StandsIn text)
    (hreach : c.Reaches c') : c'.StandsIn text := by
  obtain ⟨passed, htext, hoffset⟩ := h
  obtain ⟨further, hrest, hoffset'⟩ := hreach
  refine ⟨passed ++ further, ?_, ?_⟩
  · rw [htext, hrest, List.append_assoc]
  · rw [hoffset', hoffset, byteSize_append]

end Scanner.Cursor

namespace Grammar

open Scanner Result Assembly

/-! ## Rules that move the cursor -/

/-- The rule matches only by moving on: some part of it that cannot be left out reads a terminal
that is not empty. -/
def Rule.Moves : Rule → Prop
  | done | act _ | many _ | tally _ _ _ => False
  | never | limit => True
  | read t => ∀ ⦃cs a lexeme rest⦄, t cs = .found a lexeme rest → rest.length < cs.length
  | andThen p q => p.Moves ∨ q.Moves
  | orElse p q => p.Moves ∧ q.Moves
  | deeper p | attempt p | named _ p => p.Moves

namespace Rule

variable {r : Rule} {s s' : State}

theorem run_named {name : String} {p : Rule} (h : (named name p).run s = (true, s')) :
    ∃ s₁, p.run (s.enter name) = (true, s₁) ∧ s' = s₁.leave := by
  simp only [run] at h
  split at h
  · simp at h
  · simp only [Step.undoing] at h
    split at h
    · next s₁ hwithin =>
      simp only [Prod.mk.injEq, true_and] at h
      exact h ▸ Realizes.within_run hwithin
    · simp at h

/-- The induction is on the rule. What comes before or after the part that moves only goes on in
the text, so it cannot make up for it. -/
theorem run_moves (hsplits : r.Splits) (hmoves : r.Moves) (h : r.run s = (true, s')) :
    s'.cursor.rest.length < s.cursor.rest.length := by
  induction r generalizing s s' with
  | done | act | many | tally => exact hmoves.elim
  | never | limit => simp [run] at h
  | read t =>
    simp only [run, Step.read, Cursor.read] at h
    cases ht : t s.cursor.rest with
    | found a lexeme rest =>
      have hlength := hmoves ht
      cases a <;> simp only [ht, Prod.mk.injEq, true_and] at h <;> exact h ▸ hlength
    | missing passed => simp [ht] at h
  | deeper p ih =>
    obtain ⟨s₁, hrun, rfl⟩ := Realizes.deeper_run h
    have hshort : s₁.cursor.rest.length < s.descend.cursor.rest.length := ih hsplits hmoves hrun
    exact hshort
  | andThen p q ihp ihq =>
    obtain ⟨s₁, hleft, hright⟩ := run_andThen h
    rcases hmoves with hp | hq
    · have hshort := ihp hsplits.1 hp hleft
      have hreach := run_reaches hsplits.2 s₁
      rw [hright] at hreach
      exact lt_of_le_of_lt hreach.length_le hshort
    · have hshort := ihq hsplits.2 hq hright
      have hreach := run_reaches hsplits.1 s
      rw [hleft] at hreach
      exact lt_of_lt_of_le hshort hreach.length_le
  | orElse p q ihp ihq =>
    rcases run_orElse h with hleft | ⟨s₁, hleft, hright⟩
    · exact ihp hsplits.1 hmoves.1 hleft
    · have hreach := run_reaches hsplits.1 s
      rw [hleft] at hreach
      exact lt_of_lt_of_le (ihq hsplits.2 hmoves.2 hright) hreach.length_le
  | attempt p ih => exact ih hsplits hmoves (run_attempt h)
  | named name p ih =>
    obtain ⟨s₁, hrun, rfl⟩ := run_named h
    have hshort : s₁.cursor.rest.length < (s.enter name).cursor.rest.length :=
      ih hsplits hmoves hrun
    exact hshort

theorem choice_moves {rs : List Rule} (hrs : ∀ r ∈ rs, r.Moves) : (choice rs).Moves := by
  induction rs with
  | nil => trivial
  | cons r rs ih =>
    have hr := hrs r (List.mem_cons_self ..)
    have hrest := ih fun q hq => hrs q (List.mem_cons_of_mem r hq)
    cases rs with
    | nil => exact hr
    | cons => exact ⟨hr, hrest⟩

end Rule

section terminals

variable {α β : Type} {t : Terminal α} {p : Peg β} {f : α → β}

theorem Obeys.map_moves (ht : Obeys t p f) (hp : p.Consumes) (g : α → Option Action) :
    (Rule.read (t.map g)).Moves := by
  intro cs a lexeme rest h
  simp only [Terminal.map] at h
  split at h
  · next hfound =>
    injection h with _ _ hr
    have hreads : Reads .unlimited p cs (matched (f _) _) := ht.found hfound
    exact hr ▸ hp hreads
  · simp at h

theorem text_moves {t : String} (ht : t.toList ≠ []) : (Rule.text t).Moves :=
  (literal_obeys t).map_moves (Peg.Consumes.likeness ht) _

theorem exactly_moves {word : String} (hword : word.toList ≠ []) (a : Action) :
    (exactly word a).Moves :=
  (exactWord_obeys word).map_moves (Peg.Consumes.seqLeft (Peg.Consumes.likeness hword)) _

theorem keyword_moves {word : String} (hword : word.toList ≠ []) :
    (Rule.expect (Terminal.keyword word)).Moves :=
  (keyword_obeys word).map_moves (Peg.Consumes.seqLeft (Peg.Consumes.likeness hword)) _

theorem quoted_consumes : Peg.quoted.Consumes :=
  .choice (.seqLeft .char) (.seqLeft .char)

theorem number_consumes : Peg.number.Consumes := by
  have hwhole : Peg.whole.Consumes := .choice (.seqLeft .char) (.seqLeft .char)
  exact .seqRight (.seqLeft hwhole)

theorem name_consumes : Peg.name.Consumes := .seqLeft (.guard (.seqLeft .char))

theorem slot_moves {slot : Slot} (hslot : ∀ s ∈ slot, s.isPlain) :
    (Rule.operator slot).Moves := by
  refine Rule.choice_moves fun r hr => ?_
  obtain ⟨s, hs, rfl⟩ := List.mem_map.mp hr
  exact (spelling_obeys s).map_moves (spelling_consumes (hslot s hs)) _

end terminals

/-! ## The rules by their symbols -/

/-- The expression one level deeper, where so many levels leave one. -/
def innerExpression : Nat → Option Rule
  | 0 => none
  | levels + 1 => some (expression levels)

theorem expression_eq (levels : Nat) :
    expression levels = expressionOver (innerExpression levels) := by
  cases levels <;> rfl

theorem innerExpression_provides (levels : Nat) :
    Provides (innerExpression levels) (.limited levels) := by
  cases levels with
  | zero => rfl
  | succ levels => exact ⟨.limited levels, rfl, expression_realizes levels⟩

namespace Symbol

/-- The rule of a symbol, with room for so many levels of brackets inside it. -/
def rule (levels : Nat) : {α : Type} → Symbol α → Rule
  | _, grammar => query levels
  | _, expression => Grammar.expression levels
  | _, logicExpression =>
    Grammar.logic (negation (comparison (membership (predicate (Grammar.between
      (primary (innerExpression levels)))))))
  | _, notExpression =>
    negation (comparison (membership (predicate (Grammar.between
      (primary (innerExpression levels))))))
  | _, compareExpression =>
    comparison (membership (predicate (Grammar.between (primary (innerExpression levels)))))
  | _, compareInExpression =>
    membership (predicate (Grammar.between (primary (innerExpression levels))))
  | _, predicateExpression => predicate (Grammar.between (primary (innerExpression levels)))
  | _, betweenExpression => Grammar.between (primary (innerExpression levels))
  | _, primaryExpression => primary (innerExpression levels)
  | _, argumentList => Grammar.argumentList (innerExpression levels)
  | _, argument => .named "Argument" (Grammar.expression levels)
  | _, reference => Grammar.reference
  | _, identifier => Grammar.identifier
  | _, compare => compareOperator
  | _, logic => logicOperator
  | _, test => testOperator
  | _, value => Grammar.value
  | _, array => Grammar.array
  | _, literal => Grammar.literal

/-- What the value of a symbol does to the assembly. -/
def effect : {α : Type} → Symbol α → α → Assembly → Assembly
  | _, grammar | _, expression | _, logicExpression | _, notExpression
  | _, compareExpression | _, compareInExpression | _, predicateExpression
  | _, betweenExpression | _, primaryExpression | _, argument | _, reference | _, value => putDraft
  | _, argumentList => putArguments
  | _, identifier => putName
  | _, compare | _, logic | _, test => putOperator
  | _, array => putArray
  | _, literal => putLiteral

/-- The operand that a symbol leaves on the stack. -/
def Pushes : {α : Type} → Symbol α → Operand → Prop
  | _, argumentList, o => ∃ params, o = .arguments params
  | _, compare, o | _, logic, o | _, test, o => ∃ op, o = .node (.operation op)
  | _, identifier, o => ∃ name, o = .node (.identifier name)
  | _, _, o => ∃ n : Node, o = .node n ∧ ∀ op, n ≠ .operation op

variable {α : Type}

theorem rule_realizes (symbol : Symbol α) (levels : Nat) :
    RealizesExactly (symbol.rule levels) (.limited levels) (.call symbol) symbol.effect := by
  have hinner := innerExpression_provides levels
  have hprimary := primary_realizes hinner
  have hbetween := between_realizes hprimary
  have hpredicate := predicate_realizes hbetween
  have hmembership := membership_realizes hpredicate
  have hcomparison := comparison_realizes hmembership
  have hnegation := negation_realizes hcomparison
  cases symbol with
  | grammar => exact query_realizes levels
  | expression => exact expression_realizes levels
  | logicExpression => exact logic_realizes hnegation
  | notExpression => exact hnegation
  | compareExpression => exact hcomparison
  | compareInExpression => exact hmembership
  | predicateExpression => exact hpredicate
  | betweenExpression => exact hbetween
  | primaryExpression => exact hprimary
  | argumentList => exact argumentList_realizes hinner
  | argument => exact Realizes.named "Argument" (expression_realizes levels).toRealizes
  | reference => exact reference_realizes
  | identifier => exact identifier_realizes
  | compare => exact compareOperator_realizes
  | logic => exact logicOperator_realizes
  | test => exact testOperator_realizes
  | value => exact value_realizes
  | array => exact array_realizes
  | literal => exact literal_realizes

theorem build_ne_operation (d : Draft) (op : Operator) : d.build ≠ .operation op := by
  cases d <;> simp [Draft.build]

theorem effect_puts (symbol : Symbol α) (a : α) (m : Assembly) :
    ∃ o errors, symbol.Pushes o ∧ symbol.effect a m = m.put o errors := by
  cases symbol with
  | argumentList | compare | logic | test | identifier => exact ⟨_, _, ⟨_, rfl⟩, rfl⟩
  | array => exact ⟨_, _, ⟨_, rfl, build_ne_operation (.array a)⟩, rfl⟩
  | literal => exact ⟨_, _, ⟨_, rfl, build_ne_operation (.literal a)⟩, rfl⟩
  | _ => exact ⟨_, _, ⟨_, rfl, build_ne_operation a⟩, rfl⟩

/-! ### Every rule moves -/

theorem literal_moves : Grammar.literal.Moves := by
  refine Rule.choice_moves fun r hr => ?_
  simp only [List.mem_cons, List.not_mem_nil, or_false] at hr
  rcases hr with rfl | rfl | rfl | rfl | rfl | rfl | rfl | rfl
  · exact exactly_moves (by decide) _
  · exact exactly_moves (by decide) _
  · exact exactly_moves (by decide) _
  · exact exactly_moves (by decide) _
  · exact exactly_moves (by decide) _
  · exact exactly_moves (by decide) _
  · exact quoted_obeys.map_moves quoted_consumes _
  · exact number_obeys.map_moves number_consumes _

theorem array_moves : Grammar.array.Moves :=
  ⟨.inl (text_moves (by decide)), .inl (text_moves (by decide))⟩

theorem identifier_moves : Grammar.identifier.Moves := name_obeys.map_moves name_consumes _

theorem reference_moves : Grammar.reference.Moves := .inr (.inl identifier_moves)

theorem operator_moves {gap : Rule} {slot : Slot} (hslot : ∀ s ∈ slot, s.isPlain) :
    (Rule.seq [gap, Rule.operator slot, Rule.gap]).Moves := .inr (.inl (slot_moves hslot))

theorem argumentList_moves (inner : Option Rule) : (Grammar.argumentList inner).Moves :=
  .inl (text_moves (by decide))

theorem primary_moves (inner : Option Rule) : (primary inner).Moves :=
  ⟨.inl (text_moves (by decide)), ⟨literal_moves, array_moves⟩, .inl identifier_moves,
    reference_moves⟩

/-- The layers of an expression all begin with a primary. -/
theorem rule_moves (symbol : Symbol α) (levels : Nat) : (symbol.rule levels).Moves := by
  have hcomparison : (compareExpression.rule levels).Moves :=
    .inl (.inl (.inl (.inl (primary_moves _))))
  have hnegation : (notExpression.rule levels).Moves :=
    ⟨hcomparison, .inr (.inl (keyword_moves (by decide)))⟩
  have hexpression : (expression.rule levels).Moves := by
    rw [rule, expression_eq]
    exact .inl hnegation
  cases symbol with
  | grammar => exact .inr (.inl hexpression)
  | expression => exact hexpression
  | logicExpression => exact .inl hnegation
  | notExpression => exact hnegation
  | compareExpression => exact hcomparison
  | compareInExpression => exact .inl (.inl (.inl (primary_moves _)))
  | predicateExpression => exact .inl (.inl (primary_moves _))
  | betweenExpression => exact .inl (primary_moves _)
  | primaryExpression => exact primary_moves _
  | argumentList => exact argumentList_moves _
  | argument => exact hexpression
  | reference => exact reference_moves
  | identifier => exact identifier_moves
  | compare => exact operator_moves (slots_plain .compare (by simp))
  | logic => exact operator_moves (slots_plain .logic (by simp))
  | test => exact operator_moves (slots_plain .test (by simp))
  | value => exact ⟨literal_moves, array_moves⟩
  | array => exact array_moves
  | literal => exact literal_moves

/-! ### The contract -/

/-- What one run of the rule of a symbol does, from any state whose cursor stands in the text. -/
theorem rule_contract (symbol : Symbol α) (levels : Nat) (text : List Char) (s : State)
    (hs : s.cursor.StandsIn text) :
    let after := (symbol.rule levels).run s
    (after.1 = false → s.Same after.2) ∧
      (after.1 = true →
        after.2.cursor.StandsIn text ∧ s.cursor.offset < after.2.cursor.offset ∧
        after.2.depth = s.depth ∧ after.2.assembly.marks = s.assembly.marks ∧
        (∃ o, symbol.Pushes o ∧ after.2.assembly.stack = o :: s.assembly.stack) ∧
        s.assembly.errors <+: after.2.assembly.errors) ∧
      (symbol.rule levels).Backtracks := by
  intro after
  have hrule := symbol.rule_realizes levels
  have hreach := Rule.run_reaches hrule.splits s
  refine ⟨?_, ?_, hrule.backtracks⟩
  · intro hfailed
    exact hrule.restores s after.2 (Prod.ext hfailed rfl)
  · intro hmatched
    have hrun : (symbol.rule levels).run s = (true, after.2) := Prod.ext hmatched rfl
    have hmoved := Rule.run_moves hrule.splits (symbol.rule_moves levels) hrun
    obtain ⟨a, heffect, -⟩ := hrule.matched hrun
    obtain ⟨o, errors, hpushes, hput⟩ := symbol.effect_puts a s.assembly
    rw [hput] at heffect
    refine ⟨hs.reaches hreach, hreach.offset_lt hmoved, Rule.run_depth _ s, ?_, ?_, ?_⟩
    · rw [heffect, put]
    · exact ⟨o, hpushes, by rw [heffect, put]⟩
    · rw [heffect, put]
      exact List.prefix_append _ _

/-- A membership that is given up in the middle of its array leaves the operand before it. -/
theorem rule_contract_abandoned :
    ∃ s', (compareInExpression.rule 0).run (State.start "a in (1".toList) = (true, s') ∧
      0 < s'.cursor.offset ∧ s'.depth = 0 ∧ s'.assembly.marks = [] ∧
      ∃ o, s'.assembly.stack = [o] := by
  have hmatched : ((compareInExpression.rule 0).run (State.start "a in (1".toList)).1 = true := by
    decide +kernel
  obtain ⟨-, hsuccess, -⟩ := rule_contract compareInExpression 0 "a in (1".toList
    (State.start "a in (1".toList) (Cursor.start_standsIn _)
  generalize (compareInExpression.rule 0).run (State.start "a in (1".toList) = after
    at hmatched hsuccess ⊢
  obtain ⟨-, hoffset, hdepth, hmarks, ⟨o, -, hstack⟩, -⟩ := hsuccess hmatched
  exact ⟨after.2, Prod.ext hmatched rfl, hoffset, hdepth, hmarks, o, hstack⟩

end Symbol

end Grammar

end FilterQuery
