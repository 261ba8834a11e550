import FilterQuery.Proofs.Nests
import FilterQuery.Proofs.Shape
import Mathlib.Data.List.TakeWhile

/-!
Every symbol of the grammar nests. The height of a draft is the nesting of its tree and one level
more, since the round brackets of an array are brackets of the text but not of the tree.
-/
namespace FilterQuery

open Grammar

namespace Draft

/-- A bound on the depth of brackets in a text of the draft. -/
def height (d : Draft) : Nat := d.build.nesting + 1

theorem one_le_height (d : Draft) : 1 ≤ d.height := Nat.le_add_left 1 _

theorem height_compare (l : Draft) (op : Operator) (r : Draft) :
    (compare l op r).height = max l.height r.height := (Nat.add_max_add_right ..).symm

theorem height_logic (l : Draft) (op : Operator) (r : Draft) :
    (logic l op r).height = max l.height r.height := (Nat.add_max_add_right ..).symm

theorem height_between (l : Draft) (op : Operator) (low high : Draft) :
    (between l op low high).height = max l.height (max low.height high.height) := by
  simp only [height, build, Node.nesting, Nat.add_max_add_right]

theorem tallest_le_build (ds : List Draft) :
    tallest height ds ≤ Node.nestingOfAll (buildAll ds) + 1 := by
  induction ds with
  | nil => exact Nat.zero_le _
  | cons d ds ih =>
    rw [buildAll, Node.nestingOfAll, ← Nat.add_max_add_right]
    exact max_le_max le_rfl ih

/-- No part of a chain is higher than the chain. -/
theorem height_foldLeft {make : Draft → Operator → Draft → Draft}
    (hmake : ∀ l op r, (make l op r).height = max l.height r.height) (d : Draft)
    (parts : List (Operator × Draft)) :
    (foldLeft make d parts).height = max d.height (tallest (·.2.height) parts) := by
  induction parts generalizing d with
  | nil => simp [foldLeft, tallest]
  | cons part parts ih =>
    have hfold : foldLeft make d (part :: parts) = foldLeft make (make d part.1 part.2) parts := rfl
    rw [hfold, ih, hmake, max_assoc]
    rfl

end Draft

namespace Grammar

open Scanner Result Peg

variable {α : Type} {room : Room} {p : Peg α} {a : Nat} {h : α → Nat} {cs rest : List Char}

/-! ## Texts and words -/

theorem Reads.text_inv {t : String} {v : Unit} (hread : Reads room (Peg.text t) cs (matched v rest)) :
    cs = t.toList ++ rest := by
  cases hstrip : Terminal.stripBy (· == ·) t.toList cs with
  | none => cases hread.unique (.likeness_none hstrip)
  | some split =>
    obtain ⟨lexeme, others⟩ := split
    cases hread.unique (.likeness_some hstrip)
    exact (stripBy_exact hstrip).symm

theorem opening_nests : (Peg.text "(").Nests room 0 1 fun _ => 1 where
  passes _ _ _ hread := by
    obtain rfl := hread.text_inv
    exact ⟨[.opening], passes_opening, .opening⟩
  stable _ _ _ _ := .of_avoids (by decide)
  deepens _ _ _ hdeep := by
    have havoids : (Peg.text "(").avoids ')' = true := by decide
    exact absurd rfl (hdeep.not_tooDeep havoids)

theorem closing_nests : (Peg.text ")").Nests room 1 0 fun _ => 1 where
  passes _ _ _ hread := by
    obtain rfl := hread.text_inv
    exact ⟨[.closing], passes_closing, .closing⟩
  stable n cs hcs more o hread := by
    cases cs with
    | nil => exact absurd rfl (hcs.brackets n)
    | cons c cs =>
      by_cases hc : c = ')'
      · subst hc
        rw [hread.unique (.seq (.char rfl) (.pure _ _ _))]
        exact .seq (.char rfl) (.pure _ _ _)
      · have hother : (')' == c) = false := beq_eq_false_iff_ne.mpr (Ne.symm hc)
        rw [hread.unique (.seqLeft (.charOther hother))]
        exact .seqLeft (.charOther hother)
  deepens _ _ _ hdeep := by
    have havoids : (Peg.text ")").avoids '(' = true := by decide
    exact absurd rfl (hdeep.not_tooDeep havoids)

theorem arrow_nests : (Peg.text "->").Nests room 0 0 fun _ => 0 := by
  have havoids : (Peg.text "->").avoids ')' = true := by decide
  refine .flat (fun hread => ?_) (fun _ _ => .of_avoids havoids) fun hdeep => ?_
  · obtain rfl := hread.text_inv
    exact (passes_dash rfl).trans (passes_char (by decide))
  · exact hdeep.not_tooDeep havoids rfl

/-- Neither brackets nor quotes nor dashes nor slashes can be in the text. -/
def Spelling.isFlat : Spelling → Bool
  | symbol t => specials.all ((Peg.text t).avoids ·)
  | phrase words => words.all fun w => specials.all ((Peg.keyword w).avoids ·)

theorem slots_flat : ∀ slot ∈ [Slot.compare, .logic, .oneOf, .test],
    ∀ s ∈ slot, s.isFlat = true := by
  decide

theorem phrase_nests {words : List String}
    (hwords : ∀ w ∈ words, specials.all ((Peg.keyword w).avoids ·) = true) :
    (Peg.phrase words).Nests room 0 0 fun _ => 0 := by
  fun_induction Peg.phrase words with
  | case1 => exact .pure ()
  | case2 word => exact .plain (hwords word (List.mem_singleton_self word))
  | case3 word words hne ih =>
    obtain ⟨hword, hwords⟩ := List.forall_mem_cons.mp hwords
    exact .before (.plain hword) (.before .someGap (ih hwords) fun _ => le_rfl) fun _ => le_rfl

theorem spelling_nests {s : Spelling} (hs : s.isFlat = true) :
    s.peg.Nests room 0 0 fun _ => 0 := by
  cases s with
  | symbol t => exact .map (.plain hs) fun _ => le_rfl
  | phrase words => exact .map (phrase_nests (List.all_eq_true.mp hs)) fun _ => le_rfl

theorem slot_nests {slot : Slot} (hslot : ∀ s ∈ slot, s.isFlat = true) :
    slot.peg.Nests room 0 0 fun _ => 0 := by
  refine .firstOf fun p hp => ?_
  obtain ⟨s, hs, rfl⟩ := List.mem_map.mp hp
  exact spelling_nests (hslot s hs)

/-! ## Operators -/

theorem operator_nests {slot : Slot} (hslot : slot ∈ [Slot.compare, .logic, .oneOf, .test]) :
    slot.peg.Nests room 0 0 fun _ => 0 := slot_nests (slots_flat slot hslot)

theorem compare_nests : (Peg.call .compare).Nests room 0 0 fun _ => 0 :=
  .call (.before .gap (.followedBy (operator_nests (by decide)) .gap fun _ => le_rfl) fun _ => le_rfl)

theorem logic_nests : (Peg.call .logic).Nests room 0 0 fun _ => 0 :=
  .call (.before .gap (.followedBy (operator_nests (by decide)) .gap fun _ => le_rfl) fun _ => le_rfl)

theorem test_nests : (Peg.call .test).Nests room 0 0 fun _ => 0 :=
  .call (.before .someGap (.followedBy (operator_nests (by decide)) .gap fun _ => le_rfl)
    fun _ => le_rfl)

theorem range_nests : Peg.range.Nests room 0 0 fun _ => 0 :=
  .seq (.optional (.before (.plain (by decide)) .someGap fun _ => le_rfl) fun _ => le_rfl)
    (.plain (by decide)) fun _ _ => ⟨le_rfl, le_rfl⟩

/-! ## Values -/

theorem identifier_nests : (Peg.call .identifier).Nests room 0 0 fun _ => 0 :=
  .call (.plain (by decide))

theorem Reads.quotedBy_unclosed {quote : Char} (h : quote ∉ cs) :
    Reads room (Peg.quotedBy quote) (quote :: cs) (halted .failed) :=
  .quotedBy_open <| List.dropWhile_eq_nil_iff.mpr fun d hd => by
    have hne : d ≠ quote := fun heq => h (heq ▸ hd)
    simpa using hne

theorem Reads.quotedBy_inv {quote : Char} {v : String}
    (hread : Reads room (Peg.quotedBy quote) cs (matched v rest)) :
    ∃ content, cs = quote :: content ++ quote :: rest ∧ quote ∉ content := by
  cases cs with
  | nil => cases hread.unique (.seqLeft (.charEnd _ _ _))
  | cons c cs =>
    by_cases hc : c = quote
    · subst hc
      by_cases hmem : c ∈ cs
      · obtain ⟨content, others, rfl, hcontent⟩ := List.eq_append_cons_of_mem hmem
        have hrun : Reads room (Peg.quotedBy c) (c :: content ++ c :: others) _ :=
          .quotedBy_run hcontent
        cases hread.unique hrun
        exact ⟨content, rfl, hcontent⟩
      · cases hread.unique (.quotedBy_unclosed hmem)
    · cases hread.unique (.quotedBy_other (beq_eq_false_iff_ne.mpr hc))

theorem quoted_nests : Peg.quoted.Nests room 0 0 fun _ => 0 := by
  refine .flat (fun hread => ?_) (fun hcs _ => ?_) (fun {cs} hdeep => ?_)
  · cases hread with
    | choiceLeft hread =>
      obtain ⟨content, rfl, hcontent⟩ := hread.quotedBy_inv
      exact passes_quoted (Or.inl rfl) hcontent
    | choiceRight _ hread =>
      obtain ⟨content, rfl, hcontent⟩ := hread.quotedBy_inv
      exact passes_quoted (Or.inr rfl) hcontent
  · exact quoted_stable (not_opensQuote hcs) rfl rfl
  · rcases quoted_obeys.total room cs with ⟨v, rest, hread⟩ | hread
    · cases hdeep.unique hread
    · cases hdeep.unique hread

/-- The sign of a number opens no comment, since a digit follows it. -/
theorem number_nests : Peg.number.Nests room 0 0 fun _ => 0 := by
  have havoids : Peg.number.avoids ')' = true := by decide
  have hbody : specials.all ((Peg.pair Peg.whole (Peg.optional Peg.fraction)).avoids ·) = true := by
    decide
  refine .flat (fun {cs rest v} hread => ?_) (fun _ _ => .of_avoids havoids)
    (·.not_tooDeep havoids rfl)
  cases hread with
  | seq hsign hrest =>
    cases hsign.unique (.sign cs)
    have hpass := hrest.passes (List.all_eq_true.mp hbody) rfl
    obtain ⟨d, others, hothers, hd⟩ := whole_opens hrest (by simp)
    unfold Terminal.splitSign at hpass hothers
    split at hpass
    · subst hothers
      refine (passes_dash (beq_eq_false_iff_ne.mpr ?_)).trans hpass
      exact ne_dash_of_isDigit hd
    · exact hpass

theorem literal_nests : (Peg.call .literal).Nests room 0 0 fun _ => 0 := by
  have hplain : ∀ w ∈ literalWords, specials.all ((Peg.exactWord w).avoids ·) = true := by
    decide
  have hword : ∀ w ∈ literalWords, ∀ l : Literal,
      (Peg.map (fun _ => l) (Peg.exactWord w)).Nests room 0 0 fun _ => 0 :=
    fun w hw l => .map (.plain (hplain w hw)) fun _ => le_rfl
  exact .call <|
    .choice (hword "null" (by decide) .null) <|
    .choice (hword "NULL" (by decide) .null) <|
    .choice (hword "true" (by decide) (.bool true)) <|
    .choice (hword "TRUE" (by decide) (.bool true)) <|
    .choice (hword "false" (by decide) (.bool false)) <|
    .choice (hword "FALSE" (by decide) (.bool false)) <|
    .choice (.map quoted_nests fun _ => le_rfl) number_nests

theorem commaList_nests {k : List α → Nat} (hp : p.Nests room 0 0 h)
    (hk : ∀ vs, tallest h vs ≤ k vs) : p.commaList.Nests room 0 0 k := by
  have hother : (Peg.before Peg.gap (Peg.before (Peg.text ",") (Peg.before Peg.gap p))).Nests
      room 0 0 h :=
    .before .gap (.before (.plain (by decide)) (.before .gap hp fun _ => Nat.zero_le _)
      fun _ => Nat.zero_le _) fun _ => Nat.zero_le _
  have hend : (Peg.before Peg.gap (Peg.optional (Peg.text ","))).Nests room 0 0 fun _ => 0 :=
    .before .gap (.optional (.plain (by decide)) fun _ => le_rfl) fun _ => le_rfl
  have hothers : (Peg.many (Peg.before Peg.gap (Peg.before (Peg.text ",")
      (Peg.before Peg.gap p)))).Nests room 0 0 (tallest h) := .star hother fun _ => le_rfl
  refine .map (.optional (.seq hp (.followedBy hothers hend fun _ => Nat.zero_le _) ?_)
    fun _ => le_rfl) (h := fun o => tallest h (o.getD [])) fun _ => hk _
  exact fun v vs => ⟨Nat.le_max_left _ _, Nat.le_max_right _ _⟩

theorem parenthesized_nests (hp : p.Nests room 1 1 h) (hh : ∀ v, 1 ≤ h v) :
    (Peg.before (Peg.text "(") (Peg.before Peg.gap (Peg.followedBy p
      (Peg.before Peg.gap (Peg.text ")"))))).Nests room 0 0 h :=
  .before opening_nests (.before .gap (.followedBy hp
    (.before .gap closing_nests fun _ => le_rfl) hh) hh) hh

theorem array_nests : (Peg.call .array).Nests room 0 0 fun _ => 1 := by
  have hlist : (Peg.commaList (Peg.call .literal)).Nests room 0 0 fun _ => 0 :=
    commaList_nests literal_nests tallest_zero
  have hsquare : (Peg.bracketed "[" "]").Nests room 0 0 fun _ => 0 :=
    .before (.plain (by decide)) (.before .gap (.followedBy hlist
      (.before .gap (.plain (by decide)) fun _ => le_rfl) fun _ => le_rfl) fun _ => le_rfl)
      fun _ => le_rfl
  exact .call (.choice (hsquare.mono fun _ => Nat.zero_le 1)
    (parenthesized_nests (hlist.inside fun _ => le_rfl) fun _ => le_rfl))

theorem value_nests : (Peg.call .value).Nests room 0 0 Draft.height :=
  .call (.choice (.map literal_nests fun _ => Nat.zero_le _)
    (.map array_nests fun es => Draft.one_le_height (.array es)))

theorem bounds_nests : Peg.bounds.Nests room 0 0 fun b => max b.1.height b.2.height := by
  have hhigh : ∀ {t : String}, specials.all ((Peg.text t).avoids ·) = true →
      (Peg.followedBy (Peg.call .value) (Peg.before Peg.gap (Peg.text t))).Nests room 0 0
        Draft.height := fun ht =>
    .followedBy value_nests (.before .gap (.plain ht) fun _ => le_rfl) fun _ => Nat.zero_le _
  refine .choice (.seq value_nests (.before .gap (.before (.plain (by decide))
    (.before .gap value_nests fun _ => Nat.zero_le _) fun _ => Nat.zero_le _)
    fun _ => Nat.zero_le _) ?_) (.before (.plain (by decide)) (.before .gap
    (.seq value_nests (.before .gap (.before (.plain (by decide)) (.before .gap
      (hhigh (by decide)) fun _ => Nat.zero_le _) fun _ => Nat.zero_le _)
      fun _ => Nat.zero_le _) ?_) fun _ => Nat.zero_le _) fun _ => Nat.zero_le _)
  · exact fun _ _ => ⟨le_max_left _ _, le_max_right _ _⟩
  · exact fun _ _ => ⟨le_max_left _ _, le_max_right _ _⟩

theorem reference_nests : (Peg.call .reference).Nests room 0 0 Draft.height := by
  have hdot : (Peg.step .dot).Nests room 0 0 fun _ => 0 :=
    .before (.plain (by decide)) identifier_nests fun _ => le_rfl
  have harrow : (Peg.step .arrow).Nests room 0 0 fun _ => 0 :=
    .before arrow_nests identifier_nests fun _ => le_rfl
  have hsteps : (Peg.seq Draft.pathSteps (Peg.many (Peg.step .dot))
      (Peg.many (Peg.step .arrow))).Nests room 0 0 fun _ => 0 :=
    .seq (.star hdot tallest_zero) (.star harrow tallest_zero) fun _ _ => ⟨le_rfl, le_rfl⟩
  exact .call (.map (.seq identifier_nests hsteps fun _ _ => ⟨le_rfl, le_rfl⟩)
    fun _ => Nat.zero_le _)

/-! ## Expressions -/

theorem chain_nests {make : Draft → Operator → Draft → Draft} {op : Symbol Operator}
    {part : Symbol Draft} (hop : (Peg.call op).Nests room 0 0 fun _ => 0)
    (hpart : (Peg.call part).Nests room 0 0 Draft.height)
    (hmake : ∀ l op r, (make l op r).height = max l.height r.height) :
    (Peg.seq (Draft.foldLeft make) (Peg.call part)
      (Peg.many (Peg.pair (Peg.call op) (Peg.call part)))).Nests room 0 0 Draft.height := by
  have hparts : (Peg.pair (Peg.call op) (Peg.call part)).Nests room 0 0 fun part => part.2.height :=
    .seq hop hpart fun _ _ => ⟨Nat.zero_le _, le_rfl⟩
  refine .seq hpart (.star hparts fun _ => le_rfl) fun d parts => ?_
  exact max_le_iff.mp (Draft.height_foldLeft hmake d parts).ge

section levels

variable
  (hinner : (Peg.deeper (.call .expression)).Nests room 1 1 fun d => d.height + 1)
  (harguments : (Peg.deeper (Peg.commaList (.call .argument))).Nests room 1 1
    fun ds => Node.nestingOfAll (Draft.buildAll ds) + 2)

include hinner harguments

theorem primary_nests : (Peg.call .primaryExpression).Nests room 0 0 Draft.height := by
  have hparentheses : (Peg.map Draft.parentheses (Peg.before (Peg.text "(") (Peg.before Peg.gap
      (Peg.followedBy (Peg.deeper (.call .expression))
        (Peg.before Peg.gap (Peg.text ")")))))).Nests room 0 0 Draft.height :=
    .map (parenthesized_nests hinner fun _ => Nat.le_add_left 1 _) fun _ => le_rfl
  have hlist : (Peg.call .argumentList).Nests room 0 0
      fun ds => Node.nestingOfAll (Draft.buildAll ds) + 2 :=
    .call (parenthesized_nests harguments fun _ => Nat.le_add_left 1 _)
  have hfunction : (Peg.seq Draft.function (Peg.call .identifier)
      (Peg.call .argumentList)).Nests room 0 0 Draft.height :=
    .seq identifier_nests hlist fun _ _ => ⟨Nat.zero_le _, le_rfl⟩
  exact .call (.choice hparentheses (.choice value_nests (.choice hfunction reference_nests)))

theorem between_nests : (Peg.call .betweenExpression).Nests room 0 0 Draft.height := by
  have hbounds : (Peg.before Peg.gap (Peg.pair Peg.range (Peg.before Peg.gap Peg.bounds))).Nests
      room 0 0 fun part => max part.2.1.height part.2.2.height :=
    .before .gap (.seq range_nests (.before .gap bounds_nests fun _ => Nat.zero_le _)
      fun _ _ => ⟨Nat.zero_le _, le_rfl⟩) fun _ => Nat.zero_le _
  exact .call (.seqOptional (primary_nests hinner harguments) hbounds (fun _ => le_rfl)
    fun d part => (Draft.height_between d part.1 part.2.1 part.2.2).ge)

theorem predicate_nests : (Peg.call .predicateExpression).Nests room 0 0 Draft.height :=
  .call (.seqOptional (between_nests hinner harguments) test_nests (fun _ => le_rfl)
    fun _ _ => max_le le_rfl (Nat.zero_le _))

theorem membership_nests : (Peg.call .compareInExpression).Nests room 0 0 Draft.height := by
  have helements : (Peg.before Peg.gap (Peg.pair Slot.oneOf.peg
      (Peg.before Peg.gap (Peg.call .array)))).Nests room 0 0 fun _ => 1 :=
    .before .gap (.seq (operator_nests (by decide)) (.before .gap array_nests fun _ => Nat.zero_le 1)
      fun _ _ => ⟨Nat.zero_le 1, le_rfl⟩) fun _ => Nat.zero_le 1
  exact .call (.seqOptional (predicate_nests hinner harguments) helements (fun _ => le_rfl)
    fun d part => (Draft.height_compare d part.1 (.array part.2)).ge)

theorem comparison_nests : (Peg.call .compareExpression).Nests room 0 0 Draft.height :=
  .call (chain_nests compare_nests (membership_nests hinner harguments) Draft.height_compare)

theorem negation_nests : (Peg.call .notExpression).Nests room 0 0 Draft.height := by
  have hoperand : (Peg.call .compareExpression).Nests room 0 0 Draft.height :=
    comparison_nests hinner harguments
  exact .call (.choice hoperand (.map (.before .gap (.before (.plain (by decide))
    (.before .gap hoperand fun _ => Nat.zero_le _) fun _ => Nat.zero_le _) fun _ => Nat.zero_le _)
    fun _ => le_rfl))

theorem expressionOver_nests : (Peg.call .expression).Nests room 0 0 Draft.height :=
  .call (.call (chain_nests logic_nests (negation_nests hinner harguments) Draft.height_logic))

end levels

/-- By induction on the levels of brackets that there is room for. -/
theorem expression_nests (levels : Nat) :
    (Peg.call .expression).Nests (.limited levels) 0 0 Draft.height := by
  induction levels with
  | zero => exact expressionOver_nests (.noRoom rfl) (.noRoom rfl)
  | succ levels ih =>
    refine expressionOver_nests (.deeper rfl ih fun _ => le_rfl)
      (.deeper rfl (commaList_nests (.call ih) Draft.tallest_le_build) fun _ => le_rfl)

/-! ## Queries -/

variable {levels : Nat} {d : Draft}

theorem Reads.endOfText_text {v : Unit} (hread : Reads room Peg.endOfText cs (matched v rest)) :
    cs = [] := by
  cases cs with
  | nil => rfl
  | cons c cs => cases hread.unique (.absentPresent (.char rfl))

/-- A query is an expression with gaps around it. -/
theorem Reads.grammar_inv (hread : Reads room (.call .grammar) cs (matched d rest)) :
    ∃ mid, Reads room (.call .expression) (ahead cs) (matched d mid) ∧ ahead mid = [] := by
  cases hread with
  | call hread =>
    cases hread with
    | seq hgap hread =>
      cases hgap.unique (.gap cs)
      cases hread with
      | @seq _ _ _ _ _ _ _ _ _ _ mid _ hexpression hend =>
        cases hend with
        | seq hgap hend =>
          cases hgap.unique (.gap mid)
          exact ⟨mid, hexpression, hend.endOfText_text⟩

/-- The brackets of a query are balanced. -/
theorem grammar_passes (hread : Reads (.limited levels) (.call .grammar) cs (matched d rest)) :
    ∃ bs, Passes cs [] bs ∧ Climbs 0 0 d.height bs := by
  obtain ⟨mid, hexpression, hend⟩ := hread.grammar_inv
  obtain ⟨bs, hpass, hclimb⟩ := (expression_nests levels).passes hexpression
  have hgap : Passes mid [] [] := hend ▸ passes_gap mid
  exact ⟨bs, by simpa using (passes_gap cs).trans (hpass.trans hgap), hclimb⟩

/-- A query is too deep for so many levels only if its brackets are. -/
theorem grammar_deepens (hdeep : Reads (.limited levels) (.call .grammar) cs (halted .tooDeep)) :
    levels < peak 0 (brackets .code cs) := by
  cases hdeep with
  | call hdeep =>
    cases hdeep with
    | seqLeft hgap => cases hgap.unique (.gap cs)
    | seqRight hgap hdeep =>
      cases hgap.unique (.gap cs)
      rw [(passes_gap cs).brackets]
      cases hdeep with
      | seqLeft hdeep => simpa using (expression_nests levels).deepens rfl hdeep 0
      | @seqRight _ _ _ _ _ _ _ _ _ _ mid hexpression hdeep =>
        cases hdeep with
        | seqLeft hgap => cases hgap.unique (.gap mid)
        | seqRight hgap hend =>
          rcases endOfText_obeys.total (.limited levels) _ with ⟨v, rest, hread⟩ | hread
          · cases hend.unique hread
          · cases hend.unique hread

end Grammar

/-- What parses has as many closing brackets as opening ones, none before its own. -/
theorem balanced_of_parse {q : String} {t : Node} (h : parse q = .ok t) :
    walk 0 (brackets .code q.toList) = some 0 := by
  obtain ⟨d, hread, -⟩ := parse_eq_ok_iff.mp h
  obtain ⟨bs, hpass, hclimb⟩ := grammar_passes hread
  rw [hpass.brackets, brackets, List.append_nil]
  exact (hclimb 0).1

end FilterQuery
