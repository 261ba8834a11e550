import FilterQuery.Proofs.Openings

/-!
After the nesting limit was hit. Named rules fail from then on, but what lies between them still
runs, so a run may match once more on its way out. It then stops short of a text that goes on,
where no bracket can be closed and the query cannot end. A query that hits the limit never matches.
-/
namespace FilterQuery.Grammar

open Scanner Result

namespace Rule

variable {p q r : Rule} {B C : List Char → Prop} {s s' : State} {b : Bool}

/-! ## Rules that cannot hit the limit -/

def isShallow : Rule → Bool
  | done | never | act _ | read _ => true
  | limit => false
  | andThen p q | orElse p q | tally p q _ => p.isShallow && q.isShallow
  | deeper p | attempt p | many p | named _ p => p.isShallow

theorem inherited_isShallow : Inherited fun r => r.isShallow = true where
  deeper := id
  andThen := Bool.and_eq_true_iff.mp
  orElse := Bool.and_eq_true_iff.mp
  attempt := id
  many := id
  tally := Bool.and_eq_true_iff.mp
  named := id

theorem invariant_notHit : Invariant fun s s' => s'.tooDeep = s.tooDeep where
  refl _ := rfl
  trans h h' := h'.trans h
  perform _ _ := rfl
  backTo := id
  leave _ := id
  ascend := id

theorem run_shallow (hr : r.isShallow = true) (s : State) : (r.run s).2.tooDeep = s.tooDeep :=
  invariant_notHit.keeps inherited_isShallow (fun _ _ => invariant_notHit.read fun _ => rfl)
    (fun hlimit => by simp [isShallow] at hlimit) hr s

/-! ## Rules that fail once the limit was hit -/

def Refuses (r : Rule) : Prop :=
  ∀ ⦃s s' : State⦄, s.tooDeep ≠ none → r.run s ≠ (true, s')

theorem named_refuses (name : String) (p : Rule) : (named name p).Refuses := by
  intro s s' hs h
  simp [run, Option.isSome_iff_ne_none.mpr hs] at h

theorem andThen_refuses_left (hp : p.Refuses) : (andThen p q).Refuses := by
  intro s s' hs h
  obtain ⟨s₁, hleft, -⟩ := run_andThen h
  exact hp hs hleft

theorem andThen_refuses_right (hq : q.Refuses) : (andThen p q).Refuses := by
  intro s s' hs h
  obtain ⟨s₁, hleft, hright⟩ := run_andThen h
  exact hq (fun hs₁ => hs (tooDeep_of_run hleft hs₁)) hright

theorem attempt_refuses (hp : p.Refuses) : (attempt p).Refuses :=
  fun _ _ hs h => hp hs (run_attempt h)

theorem orElse_refuses (hp : p.Refuses) (hq : q.Refuses) : (orElse p q).Refuses := by
  intro s s' hs h
  rcases run_orElse h with hleft | ⟨s₁, hleft, hright⟩
  · exact hp hs hleft
  · exact hq (fun hs₁ => hs (tooDeep_of_run hleft hs₁)) hright

/-- A repetition of such a rule stays where it is. -/
theorem repeatUpTo_refused (hr : r.Refuses) (hs : s.tooDeep ≠ none) (rounds : Nat) :
    (Step.repeatUpTo r.run rounds s).2.cursor.rest = s.cursor.rest := by
  cases rounds with
  | zero => rfl
  | succ rounds =>
    have hundone : ∃ s₁, Step.undoing r.run s = (false, s₁) ∧ s₁.cursor.rest = s.cursor.rest := by
      unfold Step.undoing
      split
      · next heq => exact absurd heq (hr hs)
      · exact ⟨_, rfl, rfl⟩
    obtain ⟨s₁, hround, hrest⟩ := hundone
    simp [Step.repeatUpTo, hround, hrest]

theorem run_many_refused (hr : r.Refuses) (h : (many r).run s = (true, s'))
    (hs : s.tooDeep ≠ none) : s'.cursor.rest = s.cursor.rest := by
  simp only [run, Prod.mk.injEq, true_and] at h
  exact h ▸ repeatUpTo_refused hr hs _

/-! ## Where a rule that hit the limit can still match -/

/-- If the rule hits the limit and matches all the same, then `B` holds of the text ahead. -/
def Leaves (r : Rule) (B : List Char → Prop) : Prop :=
  ∀ ⦃s s' : State⦄, r.run s = (true, s') → s.tooDeep = none → s'.tooDeep ≠ none →
    B s'.cursor.rest

theorem Leaves.mono (hr : r.Leaves B) (hB : ∀ cs, B cs → C cs) : r.Leaves C :=
  fun _ _ h hs hs' => hB _ (hr h hs hs')

theorem shallow_leaves (hr : r.isShallow = true) : r.Leaves B := by
  intro s s' h hs hs'
  have hkept := run_shallow hr s
  rw [h] at hkept
  exact absurd (hkept.trans hs) hs'

theorem limit_leaves : limit.Leaves B := by
  intro s s' h
  simp [run] at h

theorem deeper_leaves (hp : p.Leaves B) : (deeper p).Leaves B := by
  intro s s' h hs hs'
  obtain ⟨s₁, hrun, rfl⟩ := Realizes.deeper_run h
  have hB : B s₁.cursor.rest := hp (s := s.descend) hrun hs hs'
  exact hB

theorem named_leaves {name : String} (hp : p.Leaves B) : (named name p).Leaves B := by
  intro s s' h hs hs'
  simp only [run, hs, Option.isSome_none, Bool.false_eq_true, if_false, Step.undoing] at h
  split at h
  · next s₁ hwithin =>
    simp only [Prod.mk.injEq, true_and] at h
    subst h
    obtain ⟨s₂, hrun, rfl⟩ := Realizes.within_run hwithin
    have hB : B s₂.cursor.rest := hp hrun hs hs'
    exact hB
  · simp at h

theorem attempt_leaves (hp : p.Leaves B) : (attempt p).Leaves B :=
  fun _ _ h hs hs' => hp (run_attempt h) hs hs'

theorem andThen_leaves_right (hp : p.isShallow = true) (hq : q.Leaves B) :
    (andThen p q).Leaves B := by
  intro s s' h hs hs'
  obtain ⟨s₁, hleft, hright⟩ := run_andThen h
  have hkept := run_shallow hp s
  rw [hleft] at hkept
  exact hq hright (hkept.trans hs) hs'

theorem andThen_leaves_act (hp : p.Leaves B) (a : Action) : (andThen p (act a)).Leaves B := by
  intro s s' h hs hs'
  obtain ⟨s₁, hleft, hright⟩ := run_andThen h
  simp only [run, Prod.mk.injEq, true_and] at hright
  subst hright
  have hB : B s₁.cursor.rest := hp hleft hs hs'
  exact hB

/-- If the limit is hit past a shallow rule, then in the rule that comes next. -/
theorem run_andThen_hit (hp : p.isShallow = true) (h : (andThen p q).run s = (false, s'))
    (hs : s.tooDeep = none) (hs' : s'.tooDeep ≠ none) :
    ∃ s₁, p.run s = (true, s₁) ∧ s₁.tooDeep = none ∧ q.run s₁ = (false, s') := by
  have hkept := run_shallow hp s
  rcases run_andThen_failed h with hleft | ⟨s₁, hleft, hright⟩
  · rw [hleft] at hkept
    exact absurd (hkept.trans hs) hs'
  · rw [hleft] at hkept
    exact ⟨s₁, hleft, hkept.trans hs, hright⟩

/-- The rule that comes next cannot match where the first one left off. -/
theorem andThen_leaves_none (hp : p.Leaves B) (hq : q.isShallow = true)
    (hB : ∀ s s', B s.cursor.rest → q.run s ≠ (true, s')) : (andThen p q).Leaves C := by
  intro s s' h hs hs'
  obtain ⟨s₁, hleft, hright⟩ := run_andThen h
  have hkept := run_shallow hq s₁
  rw [hright] at hkept
  exact absurd hright (hB s₁ s' (hp hleft hs (hkept ▸ hs')))

theorem orElse_leaves (hp : p.Leaves B) (hq : q.Leaves B) (hrefuses : q.Refuses) :
    (orElse p q).Leaves B := by
  intro s s' h hs hs'
  rcases run_orElse h with hleft | ⟨s₁, hleft, hright⟩
  · exact hp hleft hs hs'
  · by_cases hs₁ : s₁.tooDeep = none
    · exact hq hright hs₁ hs'
    · exact absurd hright (hrefuses hs₁)

/-- A round that hits the limit is the last one, whether it matches or is undone. -/
theorem many_leaves (hr : r.Leaves B) (hrefuses : r.Refuses)
    (hstop : ∀ s s', r.run s = (false, s') → s.tooDeep = none → s'.tooDeep ≠ none →
      B s.cursor.rest) : (many r).Leaves B := by
  have hrounds : ∀ (rounds : Nat) (s : State), s.tooDeep = none →
      (Step.repeatUpTo r.run rounds s).2.tooDeep ≠ none →
        B (Step.repeatUpTo r.run rounds s).2.cursor.rest := by
    intro rounds
    induction rounds with
    | zero => exact fun s hs hs' => absurd hs hs'
    | succ rounds ih =>
      intro s hs hs'
      cases hrun : r.run s with
      | mk b s₁ =>
        cases b with
        | false =>
          simp only [Step.repeatUpTo, Step.undoing, hrun] at hs' ⊢
          exact hstop s s₁ hrun hs hs'
        | true =>
          simp only [Step.repeatUpTo, Step.undoing, hrun] at hs' ⊢
          split at hs'
          · next hstay =>
            simp only [hstay, if_true]
            exact hr hrun hs hs'
          · next hmoved =>
            simp only [hmoved, if_false]
            by_cases hs₁ : s₁.tooDeep = none
            · exact ih s₁ hs₁ hs'
            · exact (repeatUpTo_refused hrefuses hs₁ rounds).symm ▸ hr hrun hs hs₁
  intro s s' h hs hs'
  simp only [run, Prod.mk.injEq, true_and] at h
  exact h ▸ hrounds _ s hs (h ▸ hs')

/-! ## What can follow a text that goes on -/

theorem run_expect {α : Type} {t : Terminal α} (h : (expect t).run s = (true, s')) :
    ∃ a lexeme, t s.cursor.rest = .found a lexeme s'.cursor.rest := by
  simp only [expect, run, Step.read, Cursor.read, Terminal.map] at h
  cases ht : t s.cursor.rest with
  | found a lexeme rest =>
    simp only [ht, Prod.mk.injEq, true_and] at h
    exact ⟨a, lexeme, h ▸ rfl⟩
  | missing passed => simp [ht] at h

theorem run_gap (h : gap.run s = (true, s')) :
    s'.cursor.rest = ahead s.cursor.rest := by
  obtain ⟨a, lexeme, hread⟩ := run_expect h
  simp only [Terminal.gap, Reading.found.injEq] at hread
  exact hread.2.2.symm

theorem run_text {t : String} (h : (text t).run s = (true, s')) :
    s.cursor.rest = t.toList ++ s'.cursor.rest := by
  obtain ⟨a, lexeme, hread⟩ := run_expect h
  simp only [Terminal.literal] at hread
  split at hread
  · next hstrip =>
    simp only [Reading.found.injEq] at hread
    rw [← stripBy_exact hstrip, hread.2.2]
  · simp at hread

/-- No bracket is closed where the text goes on. -/
theorem close_stopped {r : Rule} (s s' : State) (hs : GoesOn s.cursor.rest) :
    (andThen gap (andThen (text ")") r)).run s ≠ (true, s') := by
  intro h
  obtain ⟨s₁, hgap, hclose⟩ := run_andThen h
  obtain ⟨s₂, htext, -⟩ := run_andThen hclose
  obtain ⟨c, rest, hrest, hc, -⟩ := hs
  have hhead := run_text htext
  rw [run_gap hgap, hrest] at hhead
  exact hc (List.cons.inj hhead).1

/-- The query does not end where the text goes on. -/
theorem end_stopped (s s' : State) (hs : GoesOn s.cursor.rest) :
    (andThen gap (expect Terminal.endOfText)).run s ≠ (true, s') := by
  intro h
  obtain ⟨s₁, hgap, hend⟩ := run_andThen h
  obtain ⟨a, lexeme, hread⟩ := run_expect hend
  obtain ⟨c, rest, hrest, -⟩ := hs
  rw [run_gap hgap, hrest] at hread
  simp [Terminal.endOfText] at hread

/-! ## Chains and lists -/

variable {room : Room}

/-- Where a rule matched or hit the limit the text goes on, if its expression opens so. -/
theorem goesOn_of_run {α : Type} {p : Peg α} {e : α → Assembly → Assembly}
    (hr : Realizes r room p e) (hp : p.Opens) (h : r.run s = (b, s')) (hs : s.tooDeep = none)
    (hb : b = true ∨ s'.tooDeep ≠ none) : GoesOn s.cursor.rest := by
  by_cases hs' : s'.tooDeep = none
  · have hb' : b = true := hb.resolve_right (not_not_intro hs')
    subst hb'
    obtain ⟨a, -, hreads⟩ := hr.matched h
    exact hp (hreads hs') (by simp)
  · exact hp (hr.stopped h hs hs') (by simp)

theorem chain_leaves {operator : Rule} {op : Peg Operator} {e : Operator → Assembly → Assembly}
    {a : Action} (hr : r.Leaves GoesOn) (hop : Realizes operator room op e) (hopens : op.Opens)
    (hshallow : operator.isShallow = true) (hrefuses : operator.Refuses) :
    (chain r operator a).Leaves GoesOn := by
  have hround : (many (seq [operator, r, act a])).Leaves GoesOn := by
    refine many_leaves (andThen_leaves_right hshallow (andThen_leaves_act hr a))
      (andThen_refuses_left hrefuses) fun s s' h hs hs' => ?_
    rcases run_andThen_failed h with hleft | ⟨s₁, hleft, -⟩
    · exact goesOn_of_run hop hopens hleft hs (Or.inr hs')
    · exact goesOn_of_run hop hopens hleft hs (Or.inl rfl)
  intro s s' h hs hs'
  obtain ⟨s₁, hleft, hright⟩ := run_andThen h
  by_cases hs₁ : s₁.tooDeep = none
  · exact hround hright hs₁ hs'
  · rw [run_many_refused (andThen_refuses_left hrefuses) hright hs₁]
    exact hr hleft hs hs₁

/-- The text goes on, at once or after a comma. -/
def GoesOnListed (cs : List Char) : Prop :=
  GoesOn cs ∨ ∃ rest, ahead cs = ',' :: rest ∧ GoesOn rest

theorem trailingComma_goesOn (h : (seq [gap, optional (text ",")]).run s = (true, s'))
    (hs : GoesOnListed s.cursor.rest) : GoesOn s'.cursor.rest := by
  obtain ⟨s₁, hgap, hcomma⟩ := run_andThen h
  have hrest := run_gap hgap
  rcases run_orElse hcomma with htext | ⟨s₂, htext, hdone⟩
  · have hhead := run_text (run_attempt htext)
    rw [hrest] at hhead
    rcases hs with ⟨c, rest, hc, -, hne⟩ | ⟨rest, hc, hgoes⟩
    · exact absurd (List.cons.inj (hc.symm.trans hhead)).1 hne
    · have htail : rest = s'.cursor.rest := (List.cons.inj (hc.symm.trans hhead)).2
      exact htail ▸ hgoes
  · obtain ⟨s₃, hmissing, rfl⟩ := run_attempt_failed htext
    simp only [run, Prod.mk.injEq, true_and] at hdone
    have hback : s'.cursor.rest = ahead s.cursor.rest := hdone ▸ hrest
    rcases hs with hgoes | ⟨rest, hc, -⟩
    · rw [hback]
      exact goesOn_ahead.mpr hgoes
    · simp [text, expect, run, Step.read, Cursor.read, Terminal.map, Terminal.literal,
        Terminal.stripBy, hrest, hc] at hmissing

theorem commaList_leaves {α : Type} {p : Peg α} {e : α → Assembly → Assembly}
    (hr : Realizes r room p e) (hp : p.Opens) (hleaves : r.Leaves GoesOn)
    (hrefuses : r.Refuses) : (commaList r).Leaves GoesOn := by
  have hrefused : (seq [gap, text ",", gap, r]).Refuses :=
    andThen_refuses_right (andThen_refuses_right (andThen_refuses_right hrefuses))
  have hround : (many (seq [gap, text ",", gap, r])).Leaves GoesOnListed := by
    have helement : r.Leaves GoesOnListed := hleaves.mono fun _ => Or.inl
    refine many_leaves (andThen_leaves_right rfl (andThen_leaves_right rfl
      (andThen_leaves_right rfl helement))) hrefused fun s s' h hs hs' => ?_
    obtain ⟨s₁, hgap, hs₁, h⟩ := run_andThen_hit rfl h hs hs'
    obtain ⟨s₂, hcomma, hs₂, h⟩ := run_andThen_hit rfl h hs₁ hs'
    obtain ⟨s₃, hgap', hs₃, h⟩ := run_andThen_hit rfl h hs₂ hs'
    have hgoes := goesOn_of_run hr hp h hs₃ (Or.inr hs')
    rw [run_gap hgap', goesOn_ahead] at hgoes
    exact Or.inr ⟨s₂.cursor.rest, run_gap hgap ▸ run_text hcomma, hgoes⟩
  have hlist : (seq [r, many (seq [gap, text ",", gap, r]), gap, optional (text ",")]).Leaves
      GoesOn := by
    intro s s' h hs hs'
    obtain ⟨s₁, hfirst, h⟩ := run_andThen h
    obtain ⟨s₂, hothers, h⟩ := run_andThen h
    refine trailingComma_goesOn h ?_
    have hkept := run_shallow (r := seq [gap, optional (text ",")]) rfl s₂
    rw [h] at hkept
    by_cases hs₁ : s₁.tooDeep = none
    · exact hround hothers hs₁ (hkept ▸ hs')
    · rw [run_many_refused hrefused hothers hs₁]
      exact Or.inl (hleaves hfirst hs hs₁)
  intro s s' h hs hs'
  rcases run_orElse h with hmatched | ⟨s₁, hfailed, hdone⟩
  · exact hlist (run_attempt hmatched) hs hs'
  · -- The list was given up, so the limit was hit in it and the text before it goes on.
    obtain ⟨s₂, hrun, rfl⟩ := run_attempt_failed hfailed
    simp only [run, Prod.mk.injEq, true_and] at hdone
    subst hdone
    have hgoes : GoesOn s.cursor.rest := by
      rcases run_andThen_failed hrun with hfirst | ⟨s₃, hfirst, -⟩
      · exact goesOn_of_run hr hp hfirst hs (Or.inr hs')
      · exact goesOn_of_run hr hp hfirst hs (Or.inl rfl)
    exact hgoes

end Rule

/-! ## The layers of an expression -/

open Rule

variable {room : Room} {deeper : Option Rule} {operand : Rule} {B : List Char → Prop}

theorem nested_leaves {body : Rule → Rule}
    (hbody : ∀ e, deeper = some e → (body e).Leaves B) : (nested deeper body).Leaves B := by
  cases deeper with
  | none => exact limit_leaves
  | some e => exact deeper_leaves (hbody e rfl)

/-- A deeper expression that stops short of a text that goes on. -/
def StopsShort (deeper : Option Rule) : Prop := ∀ e, deeper = some e → e.Leaves GoesOn

theorem argumentList_leaves (hprovides : Provides deeper room) (hdeeper : StopsShort deeper) :
    (argumentList deeper).Leaves B := by
  have hargument : ∀ e, deeper = some e → (commaList (named "Argument" e)).Leaves GoesOn := by
    rintro e rfl
    obtain ⟨inner, -, he⟩ := hprovides
    have hnamed : Realizes (.named "Argument" e) inner (.call .argument) Assembly.putDraft :=
      (Realizes.named "Argument" he.toRealizes).toRealizes
    exact commaList_leaves hnamed (.call expression_opens) (named_leaves (hdeeper e rfl)) (named_refuses _ _)
  refine named_leaves (andThen_leaves_right rfl (andThen_leaves_right rfl
    (andThen_leaves_right rfl ?_)))
  exact andThen_leaves_none (nested_leaves hargument) rfl close_stopped

theorem primary_leaves (hprovides : Provides deeper room) (hdeeper : StopsShort deeper) :
    (primary deeper).Leaves B := by
  have hparentheses : (attempt (seq [text "(", gap, nested deeper id, gap, text ")",
      act .parentheses])).Leaves B := by
    refine attempt_leaves (andThen_leaves_right rfl (andThen_leaves_right rfl ?_))
    exact andThen_leaves_none (nested_leaves hdeeper) rfl close_stopped
  have hfunction : (attempt (seq [identifier, argumentList deeper, act .function])).Leaves B :=
    attempt_leaves (andThen_leaves_right rfl
      (andThen_leaves_act (argumentList_leaves hprovides hdeeper) _))
  have hname : (attempt (seq [identifier, argumentList deeper, act .function])).Refuses :=
    attempt_refuses (andThen_refuses_left (named_refuses _ _))
  have hreference : reference.Refuses := named_refuses _ _
  exact named_leaves (orElse_leaves hparentheses
    (orElse_leaves (shallow_leaves rfl)
      (orElse_leaves hfunction (shallow_leaves rfl) hreference)
      (orElse_refuses hname hreference))
    (orElse_refuses (named_refuses _ _) (orElse_refuses hname hreference)))

/-- A shallow rule after one that never matches once it has hit the limit. -/
theorem andThen_leaves_never {q : Rule} (ho : operand.Leaves fun _ => False)
    (hq : q.isShallow = true) : (andThen operand q).Leaves B :=
  andThen_leaves_none ho hq fun _ _ hfalse => hfalse.elim

theorem between_leaves (ho : operand.Leaves fun _ => False) : (between operand).Leaves B :=
  named_leaves (andThen_leaves_never ho rfl)

theorem predicate_leaves (ho : operand.Leaves fun _ => False) : (predicate operand).Leaves B :=
  named_leaves (andThen_leaves_never ho rfl)

theorem membership_leaves (ho : operand.Leaves fun _ => False) : (membership operand).Leaves B :=
  named_leaves (andThen_leaves_never ho rfl)

theorem comparison_leaves (ho : operand.Leaves GoesOn) : (comparison operand).Leaves GoesOn :=
  named_leaves (chain_leaves ho (@compareOperator_realizes .unlimited).toRealizes
    (.call (operator_opens (slots_openFirmly .compare (by simp)))) rfl (named_refuses _ _))

theorem negation_leaves (ho : operand.Leaves GoesOn) (hrefuses : operand.Refuses) :
    (negation operand).Leaves GoesOn := by
  have hnot : (attempt (seq [gap, expect (Terminal.keyword "not"), gap, operand,
      act .not])).Leaves GoesOn :=
    attempt_leaves (andThen_leaves_right rfl (andThen_leaves_right rfl
      (andThen_leaves_right rfl (andThen_leaves_act ho _))))
  exact named_leaves (orElse_leaves ho hnot (attempt_refuses (andThen_refuses_right
    (andThen_refuses_right (andThen_refuses_right (andThen_refuses_left hrefuses))))))

theorem logic_leaves (ho : operand.Leaves GoesOn) : (logic operand).Leaves GoesOn :=
  named_leaves (chain_leaves ho (@logicOperator_realizes .unlimited).toRealizes
    (.call (operator_opens (slots_openFirmly .logic (by simp)))) rfl (named_refuses _ _))

theorem expressionOver_leaves (hprovides : Provides deeper room) (hdeeper : StopsShort deeper) :
    (expressionOver deeper).Leaves GoesOn :=
  named_leaves (logic_leaves (negation_leaves (comparison_leaves (membership_leaves
    (predicate_leaves (between_leaves (primary_leaves hprovides hdeeper)))))
    (named_refuses _ _)))

theorem expression_leaves (levels : Nat) : (expression levels).Leaves GoesOn := by
  induction levels with
  | zero =>
    have hprovides : Provides none (.limited 0) := rfl
    exact expressionOver_leaves hprovides fun e he => by simp at he
  | succ levels ih =>
    have hprovides : Provides (some (expression levels)) (.limited (levels + 1)) :=
      ⟨.limited levels, rfl, expression_realizes levels⟩
    refine expressionOver_leaves hprovides fun e he => ?_
    exact Option.some.inj he ▸ ih

/-- A query that hits the nesting limit does not match. -/
theorem query_tooDeep {levels : Nat} {s s' : State} (h : (query levels).run s = (true, s'))
    (hs : s.tooDeep = none) : s'.tooDeep = none := by
  have hleaves : (query levels).Leaves fun _ => False :=
    named_leaves (andThen_leaves_right rfl
      (andThen_leaves_none (expression_leaves levels) rfl end_stopped))
  by_contra hs'
  exact hleaves h hs hs'

end FilterQuery.Grammar
