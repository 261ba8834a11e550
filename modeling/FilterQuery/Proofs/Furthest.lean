import FilterQuery.Proofs.Contract
import FilterQuery.Proofs.Offsets
import FilterQuery.Proofs.Probes

/-!
Where a syntax error stands. Each failure of the grammar is one of its terminals, and a terminal
gives up inside of the text. So the offset of a syntax error is where a terminal was missing, it is
a place between two characters, and no match, in an abandoned alternative or not, has come further.
-/
namespace FilterQuery

open Text

namespace Scanner

/-! ## Terminals stay in the text -/

namespace Terminal

variable {α β : Type}

theorem StaysIn.of_nil {t : Terminal α} (ht : Splits t)
    (hmissing : ∀ ⦃cs passed⦄, t cs = .missing passed → passed = []) : t.StaysIn where
  splits := ht
  passed _ _ h := hmissing h ▸ List.nil_prefix

theorem StaysIn.map {t : Terminal α} (ht : t.StaysIn) (f : α → β) : (t.map f).StaysIn where
  splits := map_splits f ht.splits
  passed cs passed h := by
    cases hread : t cs <;> simp only [Terminal.map, hread, reduceCtorEq] at h
    injection h with h
    exact h ▸ ht.passed hread

theorem StaysIn.followedBy {t : Terminal α} {u : α → Terminal β} (ht : t.StaysIn)
    (hu : ∀ a, (u a).StaysIn) : (t.followedBy u).StaysIn where
  splits := followedBy_splits ht.splits fun a => (hu a).splits
  passed cs passed h := by
    simp only [Terminal.followedBy] at h
    split at h
    · next hfirst =>
      injection h with h
      exact h ▸ ht.passed hfirst
    · next a lexeme rest hfirst =>
      split at h
      · next hsecond =>
        injection h with h
        rw [← h, ← ht.splits _ _ _ _ hfirst, List.prefix_append_right_inj]
        exact (hu a).passed hsecond
      · simp at h

theorem literal_staysIn (text : String) : (literal text).StaysIn := by
  refine .of_nil (literal_splits text) fun cs passed h => ?_
  unfold literal at h
  split at h <;> simp_all

theorem wordBy_staysIn (same : Char → Char → Bool) (word : String) :
    (wordBy same word).StaysIn := by
  refine .of_nil (wordBy_splits same word) fun cs passed h => ?_
  unfold wordBy at h
  split at h
  · split at h <;> simp_all
  · simp_all

theorem gap_staysIn : gap.StaysIn := .of_nil gap_splits fun cs passed h => by simp [gap] at h

theorem someGap_staysIn : someGap.StaysIn := by
  refine .of_nil someGap_splits fun cs passed h => ?_
  unfold someGap at h
  split at h <;> simp_all

theorem phrase_staysIn (words : List String) : (phrase words).StaysIn := by
  fun_induction phrase words with
  | case1 => exact .of_nil (phrase_splits []) fun cs passed h => by simp at h
  | case2 word => exact wordBy_staysIn sameLetter word
  | case3 word words _ ih =>
    refine (wordBy_staysIn sameLetter word).followedBy fun first => ?_
    exact someGap_staysIn.followedBy fun _ => ih.map _

theorem identifier_staysIn : identifier.StaysIn := by
  refine .of_nil identifier_splits fun cs passed h => ?_
  unfold identifier at h
  split at h
  · simp_all
  · split at h
    · dsimp only at h
      split at h <;> simp_all
    · simp_all

/-- An open string passes all of the text. -/
theorem quoted_staysIn : quoted.StaysIn where
  splits := quoted_splits
  passed cs passed h := by
    unfold quoted at h
    split at h
    · simp_all
    · split at h
      · split at h
        · injection h with h
          exact h ▸ List.prefix_rfl
        · simp at h
      · injection h with h
        exact h ▸ List.nil_prefix

/-- A number without digits passes its sign. -/
theorem number_staysIn : number.StaysIn where
  splits := number_splits
  passed cs passed h := by
    simp only [number] at h
    split at h
    · injection h with h
      exact h ▸ ⟨_, splitSign_append cs⟩
    · split at h <;> simp at h

theorem endOfText_staysIn : endOfText.StaysIn := by
  refine .of_nil endOfText_splits fun cs passed h => ?_
  unfold endOfText at h
  split at h <;> simp_all

end Terminal

/-! ## Excerpts -/

theorem excerpt_nil : excerpt [] = "end of input" := rfl

/-- The excerpt of a text that goes on is a beginning of it, and not what stands for the end. -/
theorem excerpt_cons (c : Char) (cs : List Char) :
    ∃ shown, excerpt (c :: cs) = String.ofList shown ∧ shown <+: c :: cs ∧ shown ≠ [] ∧
      shown ≠ "end of input".toList := by
  have hword : ((c :: cs).takeWhile fun d => !isSpace d).take excerptLength <+: c :: cs :=
    (List.take_prefix _ _).trans (List.takeWhile_prefix _)
  have hsolid : ∀ d ∈ ((c :: cs).takeWhile fun d => !isSpace d).take excerptLength,
      isSpace d = false := by
    intro d hd
    simpa using List.all_eq_true.mp List.all_takeWhile d (List.mem_of_mem_take hd)
  by_cases hnil : ((c :: cs).takeWhile fun d => !isSpace d).take excerptLength = []
  · refine ⟨[c], by simp [excerpt, hnil], by simp, by simp, ?_⟩
    have hlength : "end of input".toList.length = 12 := by decide
    intro h
    simp [← h] at hlength
  · refine ⟨_, by simp [excerpt, hnil], hword, hnil, fun h => ?_⟩
    have hspace := hsolid ' ' (h ▸ by decide)
    exact absurd hspace (by decide)

/-- The excerpt at a place between two characters. It is never empty, it stands for the end only
at the end, and anywhere else it is what the text goes on with. -/
theorem excerptAt_append (passed ahead : List Char) :
    let near := excerptAt (passed ++ ahead) (byteSize passed)
    near ≠ "" ∧ (near = "end of input" ↔ ahead = []) ∧ (ahead ≠ [] → near.toList <+: ahead) := by
  intro near
  have hnear : near = excerpt ahead := by simp [near, excerptAt, dropBytes?_append]
  cases ahead with
  | nil => exact ⟨by simp [hnear, excerpt_nil], by simp [hnear, excerpt_nil], fun h => absurd rfl h⟩
  | cons c cs =>
    obtain ⟨shown, hshown, hprefix, hne, hend⟩ := excerpt_cons c cs
    have htoList : near.toList = shown := by rw [hnear, hshown, String.toList_ofList]
    refine ⟨?_, iff_of_false ?_ (by simp), fun _ => htoList ▸ hprefix⟩
    · rintro hempty
      exact hne (by rw [← htoList, hempty]; rfl)
    · rintro hsame
      exact hend (by rw [← htoList, hsame])

end Scanner

namespace Grammar

open Scanner

variable {α : Type}

/-! ## The grammar fails by its terminals -/

namespace Rule

theorem seq_blames {rs : List Rule} (hrs : ∀ r ∈ rs, r.Blames) : (seq rs).Blames := by
  induction rs with
  | nil => trivial
  | cons r rs ih =>
    have hr := hrs r (List.mem_cons_self ..)
    have hrest := ih fun q hq => hrs q (List.mem_cons_of_mem r hq)
    cases rs with
    | nil => exact hr
    | cons => exact ⟨hr, hrest⟩

/-- A choice without alternatives would fail without a terminal. -/
theorem choice_blames {rs : List Rule} (hne : rs ≠ []) (hrs : ∀ r ∈ rs, r.Blames) :
    (choice rs).Blames := by
  induction rs with
  | nil => exact absurd rfl hne
  | cons r rs ih =>
    have hr := hrs r (List.mem_cons_self ..)
    cases rs with
    | nil => exact hr
    | cons q rs => exact ⟨hr, ih (by simp) fun q hq => hrs q (List.mem_cons_of_mem r hq)⟩

theorem expect_blames {t : Terminal α} (ht : t.StaysIn) : (expect t).Blames := ht.map _

theorem capture_blames {t : Terminal α} (ht : t.StaysIn) (f : α → Action) :
    (capture t f).Blames := ht.map _

theorem text_blames (t : String) : (text t).Blames := expect_blames (Terminal.literal_staysIn t)

theorem gap_blames : gap.Blames := expect_blames Terminal.gap_staysIn

theorem keyword_blames (word : String) : (expect (Terminal.keyword word)).Blames :=
  expect_blames (Terminal.wordBy_staysIn _ word)

theorem operator_blames {slot : Slot} (hslot : slot ≠ []) : (operator slot).Blames := by
  refine choice_blames (by simpa using hslot) fun r hr => ?_
  obtain ⟨spelling, -, rfl⟩ := List.mem_map.mp hr
  cases spelling with
  | symbol text => exact capture_blames ((Terminal.literal_staysIn text).map _) _
  | phrase words => exact capture_blames (Terminal.phrase_staysIn words) _

end Rule

section grammar

attribute [local simp] Rule.text_blames Rule.gap_blames Rule.keyword_blames Rule.capture_blames
  Rule.Blames Terminal.wordBy_staysIn Terminal.exactWord Terminal.quoted_staysIn
  Terminal.number_staysIn

theorem literal_blames : literal.Blames :=
  Rule.choice_blames (by simp) (by simp [exactly])

theorem commaList_blames {element : Rule} (h : element.Blames) :
    (Rule.commaList element).Blames := by
  simp [Rule.commaList, Rule.optional, Rule.seq, h]

theorem bracketed_blames (opening closing : String) : (bracketed opening closing).Blames :=
  Rule.seq_blames (by simp [commaList_blames literal_blames])

theorem array_blames : array.Blames :=
  Rule.choice_blames (by simp) (by simp [bracketed_blames])

theorem value_blames : value.Blames :=
  Rule.choice_blames (by simp) (by simp [literal_blames, array_blames])

theorem identifier_blames : identifier.Blames :=
  Rule.capture_blames Terminal.identifier_staysIn _

theorem reference_blames : reference.Blames :=
  Rule.seq_blames (by simp [Rule.seq, identifier_blames])

theorem spacedOperator_blames {gap : Rule} {slot : Slot} (hgap : gap.Blames) (hslot : slot ≠ []) :
    (Rule.seq [gap, Rule.operator slot, Rule.gap]).Blames :=
  Rule.seq_blames (by simp [hgap, Rule.operator_blames hslot])

theorem chain_blames {operand operator : Rule} (fold : Action) (hoperand : operand.Blames)
    (hoperator : operator.Blames) : (Rule.chain operand operator fold).Blames :=
  Rule.seq_blames (by simp [Rule.seq, hoperand, hoperator])

theorem optional_blames {r : Rule} (hr : r.Blames) : (Rule.optional r).Blames := ⟨hr, trivial⟩

theorem nested_blames {inner : Option Rule} {body : Rule → Rule}
    (h : ∀ e ∈ inner, (body e).Blames) : (Rule.nested inner body).Blames := by
  cases inner with
  | none => trivial
  | some e => exact h e rfl

variable {inner : Option Rule} {operand : Rule}

theorem argumentList_blames (hinner : ∀ e ∈ inner, e.Blames) : (argumentList inner).Blames := by
  have harguments : (Rule.nested inner fun e => Rule.commaList (.named "Argument" e)).Blames :=
    nested_blames fun e he => commaList_blames (hinner e he)
  exact Rule.seq_blames (by simp [harguments])

theorem primary_blames (hinner : ∀ e ∈ inner, e.Blames) : (primary inner).Blames := by
  have hnested : (Rule.nested inner id).Blames := nested_blames hinner
  refine Rule.choice_blames (by simp) ?_
  simp [Rule.seq, hnested, value_blames, identifier_blames, argumentList_blames hinner,
    reference_blames]

theorem rangeBounds_blames : rangeBounds.Blames :=
  Rule.choice_blames (by simp) (by simp [Rule.seq, value_blames])

theorem between_blames (h : operand.Blames) : (between operand).Blames := by
  have hoperator : (Rule.operator .between).Blames := Rule.operator_blames (by decide)
  exact ⟨h, optional_blames (Rule.seq_blames (by simp [hoperator, rangeBounds_blames]))⟩

theorem predicate_blames (h : operand.Blames) : (predicate operand).Blames := by
  have hoperator : testOperator.Blames :=
    spacedOperator_blames (Rule.expect_blames Terminal.someGap_staysIn) (by decide)
  exact ⟨h, optional_blames (Rule.seq_blames (by simp [hoperator]))⟩

theorem membership_blames (h : operand.Blames) : (membership operand).Blames := by
  have hoperator : (Rule.operator .oneOf).Blames := Rule.operator_blames (by decide)
  exact ⟨h, optional_blames (Rule.seq_blames (by simp [hoperator, array_blames]))⟩

theorem comparison_blames (h : operand.Blames) : (comparison operand).Blames :=
  chain_blames .compare h (spacedOperator_blames Rule.gap_blames (by decide))

theorem negation_blames (h : operand.Blames) : (negation operand).Blames :=
  Rule.choice_blames (by simp) (by simp [Rule.seq, h])

theorem logic_blames (h : operand.Blames) : (logic operand).Blames :=
  chain_blames .logic h (spacedOperator_blames Rule.gap_blames (by decide))

theorem expressionOver_blames (hinner : ∀ e ∈ inner, e.Blames) : (expressionOver inner).Blames :=
  logic_blames (negation_blames (comparison_blames (membership_blames (predicate_blames
    (between_blames (primary_blames hinner))))))

theorem expression_blames (room : Nat) : (expression room).Blames := by
  induction room with
  | zero => exact expressionOver_blames (by simp)
  | succ room ih => exact expressionOver_blames (by simpa using ih)

/-- A query fails only at a terminal, or for the nesting limit. -/
theorem query_blames (limit : Nat) : (query limit).Blames :=
  Rule.seq_blames (by simp [expression_blames, Rule.expect_blames Terminal.endOfText_staysIn])

end grammar

/-- The run of a query that fails within the nesting limit has a furthest failure. One of its
probes makes it, and no probe has come further. -/
theorem query_furthest {limit : Nat} {text : List Char} {s : State}
    (hrun : (query limit).run (State.start text) = (false, s)) (hs : s.tooDeep = none) :
    ∃ offset rule, s.cursor.trail.furthest = some (offset, rule) ∧
      (∃ v ∈ (query limit).probes (State.start text), v.Records offset rule) ∧
      ∀ v ∈ (query limit).probes (State.start text), v.reach ≤ offset := by
  have haccounts := chronicle_accounts.run (query_blames limit) (State.start text)
  have hrecords := chronicle_records.run (query_blames limit) (State.start text)
  rw [hrun] at haccounts hrecords
  obtain ⟨⟨offset, rule⟩, hfurthest, -⟩ := haccounts.failed hs rfl
  refine ⟨offset, rule, hfurthest, ?_, fun v hv => ?_⟩
  · have hnone : (State.start text).cursor.trail.furthest = none := rfl
    exact (hrecords offset rule hfurthest).resolve_left (by simp [hnone])
  · obtain ⟨best, hbest, hle⟩ := (haccounts.reach hs v hv).resolve_right (by simp)
    cases hfurthest.symm.trans hbest
    exact hle

/-- A probe of a run over a text gives up between two characters of the text. -/
theorem Probe.Records.exists_append {limit : Nat} {text : List Char} {v : Probe} {offset : Nat}
    {rule : String} (hv : v ∈ (query limit).probes (State.start text))
    (h : v.Records offset rule) :
    ∃ passed ahead, text = passed ++ ahead ∧ offset = byteSize passed := by
  obtain ⟨-, hprobes⟩ := chronicle_reaches.run (query_blames limit) (State.start text)
  obtain ⟨hreaches, hstays⟩ := hprobes v hv
  obtain ⟨before, htext, hoffset⟩ := (Cursor.start_standsIn text).reaches hreaches
  obtain ⟨passed, hmissing, rfl⟩ := h.offset_eq
  obtain ⟨ahead, hahead⟩ := hstays.passed hmissing
  refine ⟨before ++ passed, ahead, ?_, ?_⟩
  · rw [htext, ← hahead, List.append_assoc]
  · rw [hoffset, byteSize_append]

end Grammar

open Grammar Scanner

/-- Every terminal that is tried in the parse of a text. -/
def probes (text : String) : List Probe :=
  (query nestingLimit).probes (State.start text.toList)

/-- A syntax error reports the record of a run that fails within the nesting limit. -/
theorem parseWithin_syntaxError {limit : Nat} {q : String} {offset : Nat} {position : Position}
    {rule near : String}
    (h : (parseWithin limit q).result = .error (.syntaxError offset position rule near)) :
    ∃ s, (query limit).run (State.start q.toList) = (false, s) ∧ s.tooDeep = none ∧
      s.cursor.trail.report s.cursor.offset = (offset, rule) ∧
      position = .locate q.toList offset ∧ near = excerptAt q.toList offset := by
  cases hrun : (query limit).run (State.start q.toList) with
  | mk matched s =>
    simp only [parseWithin, hrun, formError?] at h
    cases hdeep : s.tooDeep with
    | some n => simp [hdeep] at h
    | none =>
      cases matched with
      | false =>
        simp only [hdeep, Bool.false_eq_true, if_false, Except.error.injEq,
          ParseError.syntaxError.injEq] at h
        obtain ⟨rfl, rfl, rfl, rfl⟩ := h
        exact ⟨s, rfl, hdeep, rfl, rfl, rfl⟩
      | true =>
        simp only [hdeep, if_true, Assembly.finish] at h
        split at h <;> simp at h

/-- The offset of a syntax error is the furthest that the parse has reached. A terminal is missing
there and makes the record; it is a place between two characters or the end of the text; and no
match in the parse, one that is undone later included, leaves the cursor beyond it. The position
is that of the offset, and the excerpt begins there. -/
theorem parse_syntaxError {q : String} {offset : Nat} {position : Position} {rule near : String}
    (h : parse q = .error (.syntaxError offset position rule near)) :
    (∃ v ∈ probes q, v.Records offset rule) ∧
      (∃ passed ahead, q.toList = passed ++ ahead ∧ offset = byteSize passed ∧
        (offset ≠ byteSize q.toList → near.toList <+: ahead)) ∧
      (∀ v ∈ probes q, ∀ stop, v.StandsAt stop → stop ≤ offset) ∧
      position = .locate q.toList offset ∧ near ≠ "" ∧
      (near = "end of input" ↔ offset = byteSize q.toList) := by
  obtain ⟨s, hrun, hs, hreport, hposition, hnear⟩ := parseWithin_syntaxError h
  obtain ⟨_, _, hfurthest, ⟨v, hv, hrecords⟩, hreach⟩ := query_furthest hrun hs
  simp only [Trail.report, hfurthest, Option.getD_some, Prod.mk.injEq] at hreport
  obtain ⟨rfl, rfl⟩ := hreport
  obtain ⟨passed, ahead, htext, rfl⟩ := hrecords.exists_append hv
  have hatEnd : byteSize passed = byteSize q.toList ↔ ahead = [] := by
    rw [htext, byteSize_append, ← byteSize_eq_zero]
    omega
  rw [htext] at hnear
  obtain ⟨hne, hend, hprefix⟩ := excerptAt_append passed ahead
  rw [← hnear] at hne hend hprefix
  exact ⟨⟨v, hv, hrecords⟩, ⟨passed, ahead, htext, rfl, fun h => hprefix (mt hatEnd.mpr h)⟩,
    fun v hv stop hstop => hstop.le_reach.trans (hreach v hv), hposition, hne,
    hend.trans hatEnd.symm⟩

/-- The cursor has passed `not` when no word is found that goes on with it. -/
theorem parse_syntaxError_phrase :
    parse "x not b" = .error (.syntaxError 6 ⟨1, 7⟩ "BetweenExpression" "b") ∧
      (∃ v ∈ probes "x not b", v.Records 6 "BetweenExpression") ∧
      ∀ v ∈ probes "x not b", ∀ stop, v.StandsAt stop → stop ≤ 6 := by
  have hrun : (parse "x not b").map (fun _ => ()) =
      .error (.syntaxError 6 ⟨1, 7⟩ "BetweenExpression" "b") := by decide +kernel
  have hparse : parse "x not b" = .error (.syntaxError 6 ⟨1, 7⟩ "BetweenExpression" "b") := by
    cases h : parse "x not b" with
    | ok t => simp [h, Except.map] at hrun
    | error e => simpa [h, Except.map] using hrun
  obtain ⟨hrecords, -, hstands, -⟩ := parse_syntaxError hparse
  exact ⟨hparse, hrecords, hstands⟩

end FilterQuery
