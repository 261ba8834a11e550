import FilterQuery.Proofs.Limit

/-!
What a parse gives, in terms of the grammar alone. The three ways in which the grammar can read
the whole text correspond to the errors of form and to a tree or a semantic error.
-/
namespace FilterQuery

open Grammar Result

/-- The tree of a draft, or its first fault. -/
def Draft.verdict (d : Draft) : Except ParseError Node :=
  match d.faults with
  | [] => .ok d.build
  | e :: _ => .error (.semantic e)

namespace Grammar

theorem Reads.endOfText_rest {room : Room} {cs rest : List Char}
    (h : Reads room Peg.endOfText cs (matched () rest)) : rest = [] := by
  cases h with
  | absent hp =>
    cases cs with
    | nil => rfl
    | cons c cs => cases hp.unique (.char rfl)

theorem Reads.grammar_rest {room : Room} {cs rest : List Char} {d : Draft}
    (h : Reads room (.call .grammar) cs (matched d rest)) : rest = [] := by
  cases h with
  | call h =>
    cases h with
    | seq hgap h =>
      cases h with
      | seq hexpression h =>
        cases h with
        | seq hgap' hend => exact hend.endOfText_rest

end Grammar

/-- A parse follows the grammar, with as much room as the nesting limit leaves. -/
theorem parseWithin_reads (limit : Nat) (text : String) :
    let o := parseWithin limit text
    let reads := Reads (.limited limit) (.call .grammar) text.toList
    (reads (halted .tooDeep) ∧ o.semanticErrors = [] ∧
      ∃ offset position, o.result = .error (.tooDeep limit offset position)) ∨
    (reads (halted .failed) ∧ o.semanticErrors = [] ∧
      ∃ offset position rule near, o.result = .error (.syntaxError offset position rule near)) ∨
    ∃ d, reads (matched d []) ∧ o.semanticErrors = d.faults ∧ o.result = d.verdict := by
  have hquery := query_realizes limit
  intro o reads
  cases hrun : (query limit).run (State.start text.toList) with
  | mk b s =>
    cases hdeep : s.tooDeep with
    | some offset =>
      have hb : b = false := by
        by_contra hb
        have hnone := query_tooDeep (eq_true_of_ne_false hb ▸ hrun) rfl
        simp [hdeep] at hnone
      subst hb
      have hsame := hquery.restores _ _ hrun
      refine Or.inl ⟨hquery.stopped hrun rfl (by simp [hdeep]), ?_, offset,
        .locate text.toList offset, ?_⟩
      · simp only [o, parseWithin, hrun, formError?, hdeep, hsame.assembly]
        rfl
      · simp only [o, parseWithin, hrun, formError?, hdeep]
    | none =>
      cases b with
      | false =>
        have hsame := hquery.restores _ _ hrun
        refine Or.inr (Or.inl ⟨(hquery.failed hrun).2 hdeep, ?_, ?_⟩)
        · simp only [o, parseWithin, hrun, formError?, hdeep, hsame.assembly]
          rfl
        · simp only [o, parseWithin, hrun, formError?, hdeep]
          exact ⟨_, _, _, _, rfl⟩
      | true =>
        obtain ⟨d, hassembly, hreads⟩ := hquery.matched hrun
        have hrest := (hreads hdeep).grammar_rest
        refine Or.inr (Or.inr ⟨d, hrest ▸ hreads hdeep, ?_⟩)
        have hput : s.assembly = ⟨[.node d.build], [], d.faults⟩ := hassembly
        simp only [o, parseWithin, hrun, formError?, hdeep, hput, Assembly.finish, Draft.verdict]
        cases d.faults <;> simp

namespace Grammar

variable {q : String}

/-! What the grammar reads decides how the parse ends. -/

theorem Reads.parse_tooDeep
    (h : Reads (.limited nestingLimit) (.call .grammar) q.toList (halted .tooDeep)) :
    ∃ offset position, parse q = .error (.tooDeep nestingLimit offset position) := by
  rcases parseWithin_reads nestingLimit q with
    ⟨-, -, hresult⟩ | ⟨hfailed, -⟩ | ⟨d, hmatched, -⟩
  · exact hresult
  · cases h.unique hfailed
  · cases h.unique hmatched

theorem Reads.parse_failed
    (h : Reads (.limited nestingLimit) (.call .grammar) q.toList (halted .failed)) :
    ∃ offset position rule near,
      parse q = .error (.syntaxError offset position rule near) := by
  rcases parseWithin_reads nestingLimit q with
    ⟨hdeep, -⟩ | ⟨-, -, hresult⟩ | ⟨d, hmatched, -⟩
  · cases h.unique hdeep
  · exact hresult
  · cases h.unique hmatched

theorem Reads.parse_matched {d : Draft}
    (h : Reads (.limited nestingLimit) (.call .grammar) q.toList (matched d [])) :
    parse q = d.verdict ∧ (parseOutcome q).semanticErrors = d.faults := by
  rcases parseWithin_reads nestingLimit q with
    ⟨hdeep, -⟩ | ⟨hfailed, -⟩ | ⟨d', hmatched, herrors, hverdict⟩
  · cases h.unique hdeep
  · cases h.unique hfailed
  · cases h.unique hmatched
    exact ⟨hverdict, herrors⟩

end Grammar

/-! ## Conformance -/

/-- The grammar, with no limit on nesting, reads the whole text as the draft. -/
def Derives (text : String) (d : Draft) : Prop :=
  Reads .unlimited (.call .grammar) text.toList (matched d [])

/-- The grammar does not match the text. -/
def Rejects (text : String) : Prop :=
  Reads .unlimited (.call .grammar) text.toList (halted .failed)

/-- Every literal can be converted. -/
def Draft.Converts (d : Draft) : Prop := ∀ l ∈ d.literals, ∃ v, l.convert = .ok v

theorem Draft.faults_eq_nil {d : Draft} : d.faults = [] ↔ d.Converts := by
  simp only [faults, List.filterMap_eq_nil_iff, Converts, Literal.fault?]
  refine forall₂_congr fun l _ => ?_
  cases l.convert <;> simp

theorem Draft.verdict_eq_ok {d : Draft} {t : Node} :
    d.verdict = .ok t ↔ d.Converts ∧ d.build = t := by
  rw [← faults_eq_nil, verdict]
  cases d.faults <;> simp

/-- A parse gives the tree of the draft that the grammar reads, if the draft has no fault. -/
theorem parse_eq_ok_iff {q : String} {t : Node} :
    parse q = .ok t ↔ ∃ d, Reads (.limited nestingLimit) (.call .grammar) q.toList (matched d []) ∧
      d.Converts ∧ d.build = t := by
  rcases parseWithin_reads nestingLimit q with
    ⟨hdeep, -, _, _, heq⟩ | ⟨hfailed, -, _, _, _, _, heq⟩ | ⟨d, hmatched, -, hverdict⟩
  · have hparse : parse q = _ := heq
    rw [hparse]
    refine iff_of_false (by simp) ?_
    rintro ⟨d, hd, -⟩
    cases hd.unique hdeep
  · have hparse : parse q = _ := heq
    rw [hparse]
    refine iff_of_false (by simp) ?_
    rintro ⟨d, hd, -⟩
    cases hd.unique hfailed
  · have hparse : parse q = d.verdict := hverdict
    rw [hparse, Draft.verdict_eq_ok]
    constructor
    · exact fun h => ⟨d, hmatched, h⟩
    · rintro ⟨d', hd', h⟩
      cases hd'.unique hmatched
      exact h

theorem Derives.unique {text : String} {d d' : Draft} (h : Derives text d)
    (h' : Derives text d') : d = d' := by
  cases Reads.unique h h'
  rfl

theorem Derives.not_rejects {text : String} {d : Draft} (h : Derives text d) :
    ¬ Rejects text := fun h' => by cases Reads.unique h h'

/-- A parse that succeeds, with a property of its tree that can be evaluated. -/
theorem exists_of_parse (q : String) (ok : Node → Bool) (h : (parse q).toOption.any ok = true) :
    ∃ t, parse q = .ok t ∧ ok t = true := by
  cases hparse : parse q with
  | error e => simp [hparse, Except.toOption] at h
  | ok t => exact ⟨t, rfl, by simpa [hparse, Except.toOption] using h⟩

/-- A parse that is not given up for its depth rejects what the grammar rejects, and gives the
tree that the grammar derives, provided that its literals can be converted. -/
theorem parse_conforms {q : String}
    (hdepth : ∀ limit offset position, parse q ≠ .error (.tooDeep limit offset position)) :
    ((∃ offset position rule near,
        parse q = .error (.syntaxError offset position rule near)) ↔ Rejects q) ∧
      ∀ t, parse q = .ok t ↔ ∃ d, Derives q d ∧ d.Converts ∧ d.build = t := by
  rcases parseWithin_reads nestingLimit q with
    ⟨-, -, offset, position, hdeep⟩ | ⟨hfailed, -, herror⟩ | ⟨d, hmatched, -, hverdict⟩
  · exact absurd hdeep (hdepth _ _ _)
  · have hrejects : Rejects q := hfailed.unlimited (by simp)
    refine ⟨iff_of_true herror hrejects, fun t => iff_of_false ?_ ?_⟩
    · obtain ⟨_, _, _, _, heq⟩ := herror
      have hparse : parse q = _ := heq
      simp [hparse]
    · rintro ⟨d, hd, -⟩
      exact hd.not_rejects hrejects
  · have hderives : Derives q d := hmatched.unlimited (by simp)
    have hparse : parse q = d.verdict := hverdict
    refine ⟨iff_of_false ?_ hderives.not_rejects, fun t => ?_⟩
    · rintro ⟨_, _, _, _, heq⟩
      rw [hparse, Draft.verdict] at heq
      split at heq <;> simp at heq
    · rw [hparse, Draft.verdict_eq_ok]
      constructor
      · exact fun h => ⟨d, hderives, h⟩
      · rintro ⟨d', hd', h⟩
        exact hderives.unique hd' ▸ h

theorem parse_conforms_keywords : ∃ t,
    parse "is is not null AND like LIKE like or x not between null and 'and'" = .ok t ∧
      ∃ d, Derives "is is not null AND like LIKE like or x not between null and 'and'" d ∧
        d.Converts ∧ d.build = t := by
  obtain ⟨t, ht, -⟩ := exists_of_parse
    "is is not null AND like LIKE like or x not between null and 'and'" (fun _ => true)
    (by decide +kernel)
  exact ⟨t, ht, ((parse_conforms (by simp [ht])).2 t).mp ht⟩

end FilterQuery
