import FilterQuery.Proofs.Demand
import FilterQuery.Proofs.TooDeep

/-!
Parsing without the nesting limit. A limit that is at least the length of the text is never hit, so
that the parse follows the grammar alone. What is parsed so is parsed within the nesting limit too,
if its tree takes no more levels of brackets than there are. An array in round brackets that stands
as an operand is the one thing that takes a level and is not nested: inside as many parentheses as
are allowed it is rejected.
-/
namespace FilterQuery

open Grammar Number Result

/-- A parse with a limit that no text of this length can hit. -/
def parseUnlimited (text : String) : Except ParseError Node :=
  (parseWithin text.toList.length text).result

namespace Grammar

variable {n : Nat}

theorem peak_le (n : Nat) (bs : List Bracket) : peak n bs ≤ n + bs.length := by
  fun_induction peak n bs with
  | case1 => exact le_rfl
  | case2 n bs ih => simpa [Nat.add_comm, Nat.add_left_comm] using ih
  | case3 => exact Nat.zero_le _
  | case4 n bs ih =>
    refine max_le (Nat.le_add_right _ _) (ih.trans ?_)
    simp only [List.length_cons]
    omega

theorem length_brackets_le (mode : Mode) (cs : List Char) :
    (brackets mode cs).length ≤ cs.length := by
  induction cs generalizing mode with
  | nil => exact le_rfl
  | cons c cs ih =>
    have hone : (mode.bracket? c).toList.length ≤ 1 := by
      cases mode.bracket? c <;> simp
    rw [brackets, List.length_append, List.length_cons]
    have hothers := ih (mode.after c cs)
    omega

theorem Reads.limited_of_length {q : List Char} (hn : q.length ≤ n) :
    ¬ Reads (.limited n) (.call .grammar) q (halted .tooDeep) := by
  intro hdeep
  have hpeak := grammar_deepens hdeep
  have hlength := (peak_le 0 (brackets .code q)).trans
    (Nat.add_le_add_left (length_brackets_le .code q) 0)
  omega

end Grammar

variable {q : String} {t : Node}

/-- With no limit the parse gives the tree that the grammar derives. -/
theorem parseWithin_derives {limit : Nat} (hlimit : q.toList.length ≤ limit) :
    (parseWithin limit q).result = .ok t ↔ ∃ d, Derives q d ∧ d.Converts ∧ d.build = t := by
  rcases parseWithin_reads limit q with
    ⟨hdeep, -⟩ | ⟨hfailed, -, _, _, _, _, herror⟩ | ⟨d, hmatched, -, hverdict⟩
  · exact absurd hdeep (Reads.limited_of_length hlimit)
  · have hrejects : Rejects q := hfailed.unlimited (by simp)
    refine iff_of_false (by simp [herror]) ?_
    rintro ⟨d, hd, -⟩
    exact hd.not_rejects hrejects
  · have hderives : Derives q d := hmatched.unlimited (by simp)
    rw [hverdict, Draft.verdict_eq_ok]
    constructor
    · exact fun h => ⟨d, hderives, h⟩
    · rintro ⟨d', hd', h⟩
      exact hderives.unique hd' ▸ h

/-- A tree that the parse without a limit gives is lost within the limit to the depth alone. -/
theorem parse_of_not_tooDeep {d : Draft}
    (hread : Reads .unlimited (.call .grammar) q.toList (matched d [])) (hconverts : d.Converts)
    (hroom : ¬ Reads (.limited nestingLimit) (.call .grammar) q.toList (halted .tooDeep)) :
    parse q = .ok d.build := by
  rcases parseWithin_reads nestingLimit q with
    ⟨hdeep, -⟩ | ⟨hfailed, -⟩ | ⟨d', hmatched, -, hverdict⟩
  · exact absurd hdeep hroom
  · cases hfailed.failed_eq hread
  · cases hmatched.matched_eq hread
    exact hverdict.trans (Draft.verdict_eq_ok.mpr ⟨hconverts, rfl⟩)

/-- What is parsed without the limit is parsed within it, if the tree takes no more levels than
there are, or else if the brackets of the text nest no deeper. -/
theorem parse_of_parseUnlimited (h : parseUnlimited q = .ok t)
    (hlevels : t.demand ≤ nestingLimit ∨ peak 0 (brackets .code q.toList) ≤ nestingLimit) :
    parse q = .ok t := by
  obtain ⟨d, hderives, hconverts, rfl⟩ := (parseWithin_derives le_rfl).mp h
  have hread : Reads .unlimited (.call .grammar) q.toList (matched d []) := hderives
  refine parse_of_not_tooDeep hread hconverts fun hdeep => ?_
  rcases hlevels with hdemand | hpeak
  · exact absurd (grammar_demands hdeep hread) hdemand.not_gt
  · exact absurd (grammar_deepens hdeep) hpeak.not_gt

theorem parse_of_parseUnlimited_arrays : ∃ t,
    parseUnlimited "f((x in (1, 2)), (3, 4) = y)" = .ok t ∧ t.demand = 2 ∧
      parse "f((x in (1, 2)), (3, 4) = y)" = .ok t := by
  have heval : (parseUnlimited "f((x in (1, 2)), (3, 4) = y)").toOption.any
      (·.demand == 2) = true := by
    decide +kernel
  cases hparse : parseUnlimited "f((x in (1, 2)), (3, 4) = y)" with
  | error e => simp [hparse, Except.toOption] at heval
  | ok t =>
    have hdemand : t.demand = 2 := by simpa [hparse, Except.toOption] using heval
    refine ⟨t, rfl, hdemand, parse_of_parseUnlimited hparse (Or.inl ?_)⟩
    rw [hdemand]
    decide

/-- One level to spare is enough for any tree, whatever arrays stand inside. -/
theorem parse_of_nesting_lt (h : parseUnlimited q = .ok t) (hnesting : t.nesting < nestingLimit) :
    parse q = .ok t := by
  obtain ⟨d, hderives, hconverts, rfl⟩ := (parseWithin_derives le_rfl).mp h
  have hread : Reads .unlimited (.call .grammar) q.toList (matched d []) := hderives
  refine parse_of_not_tooDeep hread hconverts fun hdeep => ?_
  have hdemand : nestingLimit < d.build.demand := grammar_demands hdeep hread
  have harrays := d.build.demand_le
  omega

/-! ## An array inside of parentheses -/

namespace Grammar

variable {n : Nat} {cs tail : List Char} {t : Node}

/-- Without a level for it a bracket is too deep, and so is the text around it. -/
theorem Reads.openings_tooDeep (n : Nat) (cs : List Char) :
    Reads (.limited n) (.call .expression) (List.replicate (n + 1) '(' ++ cs) (halted .tooDeep) := by
  have hexpression : ∀ {room : Room} {cs}, Reads room (Peg.enclosed (.call .expression)) cs
      (halted .tooDeep) → Reads room (.call .expression) cs (halted .tooDeep) := by
    intro room cs h
    have hprimary : Reads room (.call .primaryExpression) cs (halted .tooDeep) :=
      .call (.choiceDeep (.seqLeft h))
    exact .call (.call (.seqLeft (.call (.choiceDeep (.call (.seqLeft (.call (.seqLeft (.call
      (.seqLeft (.call (.seqLeft hprimary))))))))))))
  induction n with
  | zero => exact hexpression (.seqRight (.oneText rfl) (.pastGap (.seqLeft (.noRoom rfl))))
  | succ n ih =>
    rw [List.replicate_succ, List.cons_append]
    refine hexpression (.seqRight (.oneText rfl) (.pastGap (.seqLeft (.deeper rfl ?_))))
    have hahead : ahead (List.replicate (n + 1) '(' ++ cs) = List.replicate (n + 1) '(' ++ cs :=
      ahead_firm (by decide) _
    rw [hahead]
    exact ih

theorem endsToken_element {c : Char} (hc : c = ',' ∨ c = ')') (cs : List Char) :
    EndsToken (c :: cs) := by
  rcases hc with rfl | rfl <;> exact endsToken_cons (by decide)

/-- None or several values in round brackets are no expression in parentheses: either there is no
expression at all, or a comma stands behind it. -/
theorem Reads.elements_enclosed {es : List Value} (hes : ∀ e ∈ es, e.IsPlain)
    (hlength : es.length ≠ 1) (tail : List Char) :
    Reads .unlimited (Peg.enclosed (.call .expression))
      ('(' :: (joined Value.spell es ++ ')' :: tail)) (halted .failed) := by
  have hsolid : ∀ e ∈ es, Solid e.spell := fun e he => solid_scalar (hes e he)
  refine .seqRight (.oneText rfl) (.pastGap ?_)
  rw [ahead_joined (Or.inl rfl) hsolid]
  cases es with
  | nil => exact .seqLeft (.deeper rfl .expression_closed)
  | cons e es =>
    cases es with
    | nil => exact absurd rfl hlength
    | cons e' es =>
      have hplain : e.IsPlain := hes e (List.mem_cons_self ..)
      have htext : joined Value.spell (e :: e' :: es) ++ ')' :: tail = e.spell ++ ',' :: ' ' ::
          (e'.spell ++ ((es.flatMap fun x => ", ".toList ++ x.spell) ++ ')' :: tail)) := by
        simp [joined]
      have hcomma : ∀ cs, ahead (',' :: cs) = ',' :: cs :=
        ahead_solid (by decide) (by decide) (by decide)
      rw [htext]
      refine .seqRight (.deeper rfl (.expression_literal
        (fun _ => .scalar hplain (endsToken_element (Or.inl rfl) _)) ?_)) (.pastGap ?_)
      · rintro ⟨c, ds, hcs, -, hc⟩
        rw [hcomma] at hcs
        exact hc (List.cons_eq_cons.mp hcs).1.symm
      · rw [hcomma]
        exact .text_failed rfl rfl

/-- In round brackets an array is an operand, unless its only element makes it parentheses. -/
theorem Reads.roundArray {es : List Value} (hes : ∀ e ∈ es, e.IsPlain) (hlength : es.length ≠ 1)
    (tail : List Char) : Reads .unlimited (.call .primaryExpression)
      ('(' :: (joined Value.spell es ++ ')' :: tail))
      (matched (.array (es.map Value.literal)) tail) := by
  have hsolid : ∀ e ∈ es, Solid e.spell := fun e he => solid_scalar (hes e he)
  have hliteral : Reads .unlimited (.call .literal)
      ('(' :: (joined Value.spell es ++ ')' :: tail)) (halted .failed) :=
    .literal_failed (no_literalWord rfl) rfl
  have hlist : Reads .unlimited (Peg.commaList (.call .literal))
      (joined Value.spell es ++ ')' :: tail) (matched (es.map Value.literal) (')' :: tail)) :=
    .commaJoined (Or.inl rfl) hsolid
      (fun e he _ _ hd => .scalar (hes e he) (endsToken_element hd _))
      (.literal_failed (no_literalWord rfl) rfl)
  have harray : Reads .unlimited (.call .array) ('(' :: (joined Value.spell es ++ ')' :: tail))
      (matched (es.map Value.literal) tail) := by
    refine .call (.choiceRight (.seqLeft (.text_failed rfl rfl))
      (.seq (.oneText rfl) (.pastGap ?_)))
    rw [ahead_joined (Or.inl rfl) hsolid]
    exact .seq hlist (.closing (Or.inl rfl) rfl)
  exact .call (.choiceRight (.seqLeft (.elements_enclosed hes hlength tail)) (.choiceLeft (.call
    (.choiceRight (.seqLeft hliteral) (.map Draft.array harray)))))

theorem Closes.not_goesOn (h : Closes tail) : ¬ GoesOn tail := by
  rintro ⟨c, ds, hcs, hclose, hcomma⟩
  rw [h.ahead] at hcs
  exact (h c (hcs ▸ rfl)).elim hclose hcomma

/-- Parentheses around an expression read as parentheses around its tree. -/
theorem Reads.wrapped (hcs : Solid cs) (h : ∀ {tail}, Closes tail →
    Reads .unlimited (.call .expression) (cs ++ tail) (matched t.draft tail)) (n : Nat) :
    ∀ {tail}, Closes tail → Reads .unlimited (.call .expression)
      (List.replicate n '(' ++ (cs ++ (List.replicate n ')' ++ tail)))
      (matched (Node.parentheses^[n] t).draft tail) := by
  induction n with
  | zero => exact h
  | succ n ih =>
    intro tail htail
    have hclose : Closes (')' :: tail) := by
      rintro c ⟨⟩
      exact Or.inl rfl
    have hstop : ¬ GoesOn tail := htail.not_goesOn
    have hsolid : ahead (List.replicate n '(' ++ (cs ++ (List.replicate n ')' ++ ')' :: tail))) =
        List.replicate n '(' ++ (cs ++ (List.replicate n ')' ++ ')' :: tail)) := by
      cases n with
      | zero => exact hcs _
      | succ n => exact ahead_firm (by decide) _
    have htext : List.replicate (n + 1) ')' ++ tail = List.replicate n ')' ++ ')' :: tail := by
      rw [List.replicate_succ', List.append_assoc]
      rfl
    rw [htext, List.replicate_succ, List.cons_append, Function.iterate_succ_apply']
    refine .expression_of_primary (.call (.choiceLeft (.map Draft.parentheses
      (.seq (.oneText rfl) (.pastGap ?_))))) hstop
    rw [hsolid]
    exact .seq (.deeper rfl (ih hclose)) (.closing (Or.inl rfl) rfl)

/-- An array in so many parentheses. -/
def nestedArray (n : Nat) : List Char :=
  List.replicate n '(' ++ ("(1, 2)".toList ++ (List.replicate n ')' ++ []))

theorem Reads.nestedArray (n : Nat) :
    Reads .unlimited (.call .grammar) (nestedArray n)
        (matched (Node.parentheses^[n] (.value (.array [.int 1, .int 2]))).draft []) ∧
      Reads (.limited n) (.call .grammar) (Grammar.nestedArray n) (halted .tooDeep) := by
  have hplain : ∀ e ∈ [Value.int 1, .int 2], e.IsPlain := by
    simp [Value.IsPlain, Value.IsScalar, Value.decimals]
  have harray : ∀ {tail}, Closes tail → Reads .unlimited (.call .expression)
      ("(1, 2)".toList ++ tail) (matched (Node.value (.array [.int 1, .int 2])).draft tail) :=
    fun {tail} htail =>
      .expression_of_primary (.roundArray hplain (by decide) tail) htail.not_goesOn
  have hclose : Closes [] := by
    rintro c ⟨⟩
  have hend : Reads .unlimited (Peg.before Peg.gap Peg.endOfText) [] (matched () []) :=
    .pastGap (.absent (.charEnd _ _ _))
  have hsolid : Solid "(1, 2)".toList := solid_firm (by decide) _
  have htext : Grammar.nestedArray n =
      List.replicate (n + 1) '(' ++ ("1, 2)".toList ++ (List.replicate n ')' ++ [])) := by
    rw [Grammar.nestedArray, List.replicate_succ', List.append_assoc]
    rfl
  have hahead : ahead (Grammar.nestedArray n) = Grammar.nestedArray n := by
    rw [htext]
    exact ahead_firm (by decide) _
  constructor
  · refine .call (.pastGap ?_)
    rw [hahead]
    exact .seq (.wrapped hsolid harray n hclose) hend
  · refine .call (.pastGap (.seqLeft ?_))
    rw [hahead, htext]
    exact .openings_tooDeep n _

end Grammar

theorem parseUnlimited_nestedArray (n : Nat) :
    ∃ t, parseUnlimited (String.ofList (nestedArray n)) = .ok t ∧ t.nesting = n := by
  have hshaped : Shaped .logic (.value (.array [.int 1, .int 2])) :=
    .ofNegation <| .ofComparison <| .ofMembership <| .ofPredicate <| .ofBetween <|
      .ofPrimary <| .value (by simp [Value.IsFlat, Value.IsScalar])
  obtain ⟨hwrapped, hdecimals, hnesting⟩ := wrapped_shaped hshaped n
  have hplaces : (Node.parentheses^[n] (.value (.array [.int 1, .int 2]))).HasPlaces := by
    rw [Node.HasPlaces, hdecimals]
    exact List.forall_mem_nil _
  have hdrafted := isDrafted_of_shaped hwrapped hplaces
  have hderives : Derives (String.ofList (nestedArray n))
      (Node.parentheses^[n] (.value (.array [.int 1, .int 2]))).draft := by
    rw [Derives, String.toList_ofList]
    exact (Reads.nestedArray n).1
  exact ⟨_, (parseWithin_derives le_rfl).mpr ⟨_, hderives, hdrafted.converts, hdrafted.build⟩,
    hnesting⟩

/-- An array in as many parentheses as are allowed is no deeper than they are. -/
theorem parse_array_tooDeep :
    ∃ t, parseUnlimited (String.ofList (nestedArray nestingLimit)) = .ok t ∧
      t.nesting ≤ nestingLimit ∧ parse (String.ofList (nestedArray nestingLimit)) ≠ .ok t := by
  obtain ⟨t, ht, hnesting⟩ := parseUnlimited_nestedArray nestingLimit
  have hdeep : Reads (.limited nestingLimit) (.call .grammar)
      (String.ofList (nestedArray nestingLimit)).toList (halted .tooDeep) := by
    rw [String.toList_ofList]
    exact (Reads.nestedArray nestingLimit).2
  obtain ⟨offset, position, hparse⟩ := hdeep.parse_tooDeep
  refine ⟨t, ht, hnesting.le, fun hok => ?_⟩
  cases hparse.symm.trans hok

end FilterQuery
