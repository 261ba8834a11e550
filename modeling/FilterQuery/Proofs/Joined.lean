import FilterQuery.Join
import FilterQuery.Proofs.Nesting
import FilterQuery.Proofs.ReadBack
import Mathlib.Data.List.Forall2

/-!
Joined queries. Each query stands in parentheses of its own, which read as the end of its text
does, unless a comment is still open there. Then the parenthesis that closes the query is part of
the comment, and so is what comes behind it up to the next break of a line.
-/
namespace FilterQuery

open Grammar Scanner Result

/-- A comment is still open at the end of the query. -/
def EndsInComment (q : String) : Prop := ending .code q.toList = .comment

instance (q : String) : Decidable (EndsInComment q) :=
  inferInstanceAs (Decidable (ending .code q.toList = .comment))

/-- The trees in parentheses of their own, with `and` between them from the left. -/
def Node.conjunction (t : Node) (ts : List Node) : Node :=
  ts.foldl (fun l t => .logic l .and (.parentheses t)) (.parentheses t)

/-- A query with its tree, which leaves a level of brackets for the parentheses around it. -/
structure Entry (q : String) (t : Node) : Prop where
  parses : parse q = .ok t
  nesting : t.nesting < 255

/-! ## The text -/

/-- The queries that come after others. -/
def others (qs : List String) : List Char := qs.flatMap fun q => " and ".toList ++ wrap q

/-- A query and the others after it. -/
def spliced (q : String) (qs : List String) : List Char := '(' :: (q.toList ++ ')' :: others qs)

theorem others_cons (q : String) (qs : List String) :
    others (q :: qs) = " and ".toList ++ spliced q qs := by
  simp [others, spliced, wrap]

theorem others_append (qs qs' : List String) : others (qs ++ qs') = others qs ++ others qs' :=
  List.flatMap_append

theorem intercalate_wrap (q : String) (qs : List String) :
    " and ".toList.intercalate ((q :: qs).map wrap) = spliced q qs := by
  induction qs generalizing q with
  | nil => simp [List.intercalate, spliced, others, wrap]
  | cons q' qs ih =>
    have hrest := ih q'
    simp only [List.intercalate, List.map_cons] at hrest ⊢
    rw [List.intersperse_cons_cons, List.flatten_cons, List.flatten_cons, hrest, ← others_cons]
    simp [spliced, wrap]

theorem join_eq {queries : List String} {q : String} {qs : List String}
    (hlength : 2 ≤ queries.length) (hqs : (queries.filter fun q => !Text.isBlank q) = q :: qs) :
    join queries = String.ofList (spliced q qs) := by
  match queries with
  | [] => simp at hlength
  | [only] => simp at hlength
  | q₁ :: q₂ :: queries =>
    have hjoin : join (q₁ :: q₂ :: queries) = String.ofList (" and ".toList.intercalate
        (((q₁ :: q₂ :: queries).filter fun q => !Text.isBlank q).map wrap)) := rfl
    rw [hjoin, hqs, intercalate_wrap]

/-! ## One query in parentheses -/

namespace Entry

variable {q : String} {t : Node}

/-- The query as the grammar reads it: an expression with gaps around it. -/
theorem reads (h : Entry q t) : ∃ d rest, d.Converts ∧ d.build = t ∧
    Reads (.limited nestingLimit) (.call .expression) (ahead q.toList) (matched d rest) ∧
      ahead rest = [] := by
  obtain ⟨d, hread, hconverts, hbuild⟩ := parse_eq_ok_iff.mp h.parses
  obtain ⟨rest, hexpression, hend⟩ := hread.grammar_inv
  exact ⟨d, rest, hconverts, hbuild, hexpression, hend⟩

theorem passes (h : Entry q t) : ∃ bs, Passes q.toList [] bs ∧ Climbs 0 0 255 bs := by
  obtain ⟨d, hread, -, hbuild⟩ := parse_eq_ok_iff.mp h.parses
  obtain ⟨bs, hpass, hclimb⟩ := grammar_passes hread
  have hheight : d.height ≤ 255 := by
    rw [Draft.height, hbuild]
    exact h.nesting
  exact ⟨bs, hpass, hclimb.mono hheight⟩

/-- Without a comment at its end the query is closed. -/
theorem closed (h : Entry q t) (hq : ¬ EndsInComment q) : Closed 0 q.toList := by
  obtain ⟨bs, hpass, hclimb⟩ := h.passes
  constructor
  · exact hpass.ending.resolve_right fun hcomment => hq hcomment.2
  · intro m hwalk
    rw [hpass.brackets, brackets, List.append_nil] at hwalk
    have hlevel := (hclimb 0).1
    simp [hwalk] at hlevel

/-- A closed query in parentheses is an operand, whatever comes behind. -/
theorem reads_wrapped (h : Entry q t) (hq : ¬ EndsInComment q) : ∃ d : Draft,
    d.Converts ∧ d.build = .parentheses t ∧ ∀ tail, Reads .unlimited (.call .primaryExpression)
      ('(' :: (q.toList ++ ')' :: tail)) (matched d tail) := by
  obtain ⟨d, rest, hconverts, hbuild, hexpression, hend⟩ := h.reads
  refine ⟨.parentheses d, hconverts, by rw [Draft.build, hbuild], fun tail => ?_⟩
  have hnests := expression_nests nestingLimit
  have hclosed := h.closed hq
  have hahead : Closed 0 (ahead q.toList) := (passes_gap q.toList).closed rfl hclosed
  obtain ⟨bs, hpass, hclimb⟩ := hnests.passes hexpression
  have hrest : Closed 0 rest := hpass.closed (hclimb 0).1 hahead
  have hgap : ∀ {cs}, Closed 0 cs → Reads .unlimited Peg.gap (cs ++ ')' :: tail)
      (matched () (ahead cs ++ ')' :: tail)) := by
    intro cs hcs
    have hstable : Peg.gap.Nests .unlimited 0 0 fun _ => 0 := .gap
    exact hstable.stable hcs tail (.gap cs)
  have hinner := (hnests.stable hahead tail hexpression).unlimited (by simp [Result.append])
  have hclose := hgap hrest
  rw [hend] at hclose
  exact .call (.choiceLeft (.map Draft.parentheses (.seq (.oneText rfl) (.seq (hgap hclosed)
    (.seq (.deeper rfl hinner) (.seq hclose (.oneText rfl)))))))

/-- The parentheses around a closed query close behind it. -/
theorem passes_wrapped (h : Entry q t) (hq : ¬ EndsInComment q) (tail : List Char) :
    ∃ bs, Passes ('(' :: (q.toList ++ ')' :: tail)) tail bs ∧ Climbs 0 0 nestingLimit bs := by
  obtain ⟨bs, hpass, hclimb⟩ := h.passes
  have hclose : Passes (q.toList ++ ')' :: tail) tail (bs ++ [.closing]) :=
    hpass.close (h.closed hq).ending tail
  have hwalk : Climbs 0 0 nestingLimit (.opening :: (bs ++ [.closing])) :=
    Climbs.opening.append (hclimb.inside.append .closing)
  exact ⟨_, passes_opening.trans hclose, hwalk⟩

end Entry

/-! ## The outline of the joined text -/

section outline

variable {q : String} {qs : List String}

theorem passes_and (cs : List Char) : Passes (" and ".toList ++ cs) cs [] :=
  .plain (by decide) cs

theorem brackets_spliced (q : String) (qs : List String) :
    brackets .code (spliced q qs) = brackets .code (others (q :: qs)) := by
  rw [others_cons, (passes_and _).brackets, List.nil_append]

theorem passes_others (hentries : ∀ q ∈ qs, ∃ t, Entry q t) (hqs : ∀ q ∈ qs, ¬ EndsInComment q)
    (tail : List Char) : ∃ bs, Passes (others qs ++ tail) tail bs ∧ Climbs 0 0 nestingLimit bs := by
  induction qs with
  | nil => exact ⟨[], .refl tail, (Climbs.none 0).mono (Nat.zero_le _)⟩
  | cons q qs ih =>
    obtain ⟨⟨t, hentry⟩, hentries⟩ := List.forall_mem_cons.mp hentries
    obtain ⟨hq, hqs⟩ := List.forall_mem_cons.mp hqs
    obtain ⟨bs, hpass, hclimb⟩ := hentry.passes_wrapped hq (others qs ++ tail)
    obtain ⟨bs', hpass', hclimb'⟩ := ih hentries hqs
    have htext : others (q :: qs) ++ tail =
        " and ".toList ++ '(' :: (q.toList ++ ')' :: (others qs ++ tail)) := by
      simp [others_cons, spliced]
    rw [htext]
    exact ⟨_, (passes_and _).trans (hpass.trans hpass'), hclimb.append hclimb'⟩

/-- Brackets of queries that are closed keep to the nesting limit. -/
theorem peak_others (hentries : ∀ q ∈ qs, ∃ t, Entry q t) (hqs : ∀ q ∈ qs, ¬ EndsInComment q) :
    peak 0 (brackets .code (others qs)) ≤ nestingLimit := by
  obtain ⟨bs, hpass, hclimb⟩ := passes_others hentries hqs []
  rw [List.append_nil] at hpass
  rw [hpass.brackets, brackets, List.append_nil]
  simpa using (hclimb 0).2

theorem brackets_comment {cs : List Char} (h : ∀ c ∈ cs, Terminal.isBreak c = false) :
    brackets .comment cs = [] := by
  induction cs with
  | nil => rfl
  | cons c cs ih =>
    obtain ⟨hc, hcs⟩ := List.forall_mem_cons.mp h
    have hafter : Mode.after .comment c cs = .comment := by simp [Mode.after, hc]
    rw [brackets, hafter, ih hcs]
    rfl

/-- A comment that is open at the end of a query hides all of the text behind it, if no line breaks
there. Then the bracket before the query stays open. -/
theorem walk_others {pre post : List String} (hpre : ∀ p ∈ pre, ∃ t, Entry p t)
    (hclosed : ∀ p ∈ pre, ¬ EndsInComment p) {t : Node} (hq : Entry q t)
    (hcomment : EndsInComment q)
    (hbreaks : ∀ p ∈ post, ∀ c ∈ p.toList, Terminal.isBreak c = false) :
    walk 0 (brackets .code (others (pre ++ q :: post))) = some 1 := by
  obtain ⟨bs, hpass, hclimb⟩ := passes_others hpre hclosed (others (q :: post))
  obtain ⟨bs', hpass', hclimb'⟩ := hq.passes
  have hhidden : brackets .comment (')' :: others post) = [] := by
    refine brackets_comment (List.forall_mem_cons.mpr ⟨rfl, fun c hc => ?_⟩)
    obtain ⟨p, hp, hc⟩ := List.mem_flatMap.mp hc
    have hfixed : (" and (".toList ++ [')']).all (!Terminal.isBreak ·) = true := by decide
    by_cases hmem : c ∈ p.toList
    · exact hbreaks p hp c hmem
    · simpa using List.all_eq_true.mp hfixed c (by simp_all [wrap])
  have hopen : brackets .code (others (q :: post)) = .opening :: bs' := by
    rw [others_cons, (passes_and _).brackets, spliced, passes_opening.brackets, brackets_close,
      hcomment, hhidden, hpass'.brackets, brackets]
    simp
  rw [others_append, hpass.brackets, hopen, walk_append (hclimb 0).1]
  exact (hclimb' 1).1

end outline

/-! ## Queries that are closed -/

section closed

variable {q : String} {t : Node} {qs : List String} {ts : List Node} {cs : List Char}

/-- Where other queries come next, or none, no operand goes on. -/
theorem follows_others (qs : List String) : Follows Operator.logics (others qs) := by
  cases qs with
  | nil =>
    refine Or.inl ?_
    rintro c ⟨⟩
  | cons q qs =>
    have hand : Operator.and ∈ Operator.logics := by decide
    have hblank : EndsToken (' ' :: spliced q qs) := endsToken_cons (by decide)
    exact others_cons q qs ▸ Follows.operator hand .word hblank

/-- A closed query in parentheses is read in full as an operand of `and`. -/
theorem Entry.reads_operand (h : Entry q t) (hq : ¬ EndsInComment q) : ∃ d : Draft,
    d.Converts ∧ d.build = .parentheses t ∧ ∀ qs, Reads .unlimited (.call .notExpression)
      (spliced q qs) (matched d (others qs)) := by
  obtain ⟨d, hconverts, hbuild, hread⟩ := h.reads_wrapped hq
  have hwider : ∀ level ∈ [Binding.between, .predicate, .membership],
      Operator.logics ⊆ followers level := by decide
  refine ⟨d, hconverts, hbuild, fun qs => ?_⟩
  have hfollows := follows_others qs
  have hbetween := (hread (others qs)).between_of_primary (hfollows.mono (hwider _ (by decide)))
  have hpredicate := hbetween.predicate_of_between (hfollows.mono (hwider _ (by decide)))
  have hmembership := hpredicate.membership_of_predicate (Or.inl rfl)
    (hfollows.mono (hwider _ (by decide)))
  exact .call (.choiceLeft (.comparison_of_chain (.first hmembership) (Or.inl rfl) hfollows))

theorem ahead_spliced (q : String) (qs : List String) : ahead (spliced q qs) = spliced q qs :=
  ahead_firm (by decide) _

/-- The operands after others are read one by one. -/
theorem chain_others (hentries : List.Forall₂ Entry qs ts) (hqs : ∀ q ∈ qs, ¬ EndsInComment q)
    {l : Draft} (hl : l.Converts)
    (hchain : Chain .unlimited .logic .logic .notExpression cs l (others qs)) :
    ∃ d : Draft, d.Converts ∧
      d.build = ts.foldl (fun l t => .logic l .and (.parentheses t)) l.build ∧
      Chain .unlimited .logic .logic .notExpression cs d [] := by
  induction hentries generalizing l with
  | nil => exact ⟨l, hl, rfl, hchain⟩
  | @cons q t qs ts hentry hentries ih =>
    obtain ⟨hq, hqs⟩ := List.forall_mem_cons.mp hqs
    obtain ⟨r, hr, hbuild, hread⟩ := hentry.reads_operand hq
    have hslot := slots_find (Slot.logic, Operator.logics) (by simp)
    have htext : others (q :: qs) = ' ' :: (Operator.and.spell .word ++ ' ' :: spliced q qs) :=
      others_cons q qs
    have hoperator : Reads .unlimited (.call .logic) (others (q :: qs))
        (matched .and (spliced q qs)) :=
      .call (.spacedOperator hslot (by decide) (congrArg ahead htext) (ahead_spliced q qs))
    have hlogic : (Draft.logic l .and r).Converts := List.forall_mem_append.mpr ⟨hl, hr⟩
    obtain ⟨d, hconverts, hfold, hrest⟩ := ih hqs hlogic (hchain.next hoperator (hread qs))
    rw [Draft.build, hbuild] at hfold
    exact ⟨d, hconverts, hfold, hrest⟩

theorem reads_spliced (hentries : List.Forall₂ Entry (q :: qs) (t :: ts))
    (hqs : ∀ p ∈ q :: qs, ¬ EndsInComment p) : ∃ d : Draft,
      d.Converts ∧ d.build = .conjunction t ts ∧
        Reads .unlimited (.call .grammar) (spliced q qs) (matched d []) := by
  obtain ⟨hentry, hentries⟩ := List.forall₂_cons.mp hentries
  obtain ⟨hq, hqs⟩ := List.forall_mem_cons.mp hqs
  obtain ⟨first, hfirst, hbuild, hread⟩ := hentry.reads_operand hq
  obtain ⟨d, hconverts, hfold, hchain⟩ := chain_others hentries hqs hfirst (.first (hread qs))
  have hclose : Closes [] := by
    rintro c ⟨⟩
  have hend : Reads .unlimited (Peg.before Peg.gap Peg.endOfText) [] (matched () []) :=
    .pastGap (.absent (.charEnd _ _ _))
  refine ⟨d, hconverts, by rw [hfold, hbuild, Node.conjunction], .call (.pastGap ?_)⟩
  rw [ahead_spliced]
  exact .seq (.expression_of_chain hchain hclose) hend

theorem exists_entry (hentries : List.Forall₂ Entry qs ts) : ∀ q ∈ qs, ∃ t, Entry q t := by
  induction hentries with
  | nil => simp
  | cons hentry hentries ih => exact List.forall_mem_cons.mpr ⟨⟨_, hentry⟩, ih⟩

/-- The limit on nesting is not reached, since each query leaves a level of brackets. -/
theorem parse_spliced (hentries : List.Forall₂ Entry (q :: qs) (t :: ts))
    (hqs : ∀ p ∈ q :: qs, ¬ EndsInComment p) :
    parse (String.ofList (spliced q qs)) = .ok (.conjunction t ts) := by
  obtain ⟨d, hconverts, hbuild, hread⟩ := reads_spliced hentries hqs
  refine parse_eq_ok_iff.mpr ⟨d, ?_, hconverts, hbuild⟩
  rcases parseWithin_reads nestingLimit (String.ofList (spliced q qs)) with
    ⟨hdeep, -⟩ | ⟨hfailed, -⟩ | ⟨d', hmatched, -⟩
  · rw [String.toList_ofList] at hdeep
    have hpeak := grammar_deepens hdeep
    rw [brackets_spliced] at hpeak
    exact absurd hpeak (not_lt.mpr (peak_others (exists_entry hentries) hqs))
  · rw [String.toList_ofList] at hfailed
    cases hread.unique (hfailed.unlimited (by simp))
  · have hsame := hmatched.unlimited (by simp)
    rw [String.toList_ofList] at hsame
    cases hread.unique hsame
    exact hmatched

end closed

/-! ## Joining -/

variable {queries : List String} {t : Node} {ts : List Node}

theorem exists_entry_of_parse (q : String)
    (h : (parse q).toOption.any (fun t => decide (t.nesting < 255)) = true) : ∃ t, Entry q t := by
  obtain ⟨t, ht, hnesting⟩ := exists_of_parse q _ h
  exact ⟨t, ht, of_decide_eq_true hnesting⟩

/-- Queries of which none ends in a comment are joined to the conjunction of their trees. -/
theorem parse_join (hlength : 2 ≤ queries.length)
    (hentries : List.Forall₂ Entry (queries.filter fun q => !Text.isBlank q) (t :: ts))
    (hcomments : ∀ q ∈ queries, Text.isBlank q = false → ¬ EndsInComment q) :
    parse (join queries) = .ok (.conjunction t ts) := by
  cases hqs : queries.filter fun q => !Text.isBlank q with
  | nil => simp [hqs] at hentries
  | cons q qs =>
    rw [join_eq hlength hqs]
    refine parse_spliced (hqs ▸ hentries) fun p hp => ?_
    obtain ⟨hmem, hblank⟩ := List.mem_filter.mp (hqs ▸ hp)
    exact hcomments p hmem (by simpa using hblank)

theorem parse_join_comment_between : ∃ t u v,
    parse "a in (1, 'it)') -- (s\n" = .ok t ∧ parse "f((b) // )\r, 2) or not c" = .ok u ∧
      parse "d->e between 1 and 2" = .ok v ∧
        parse (join ["a in (1, 'it)') -- (s\n", " \t", "f((b) // )\r, 2) or not c",
          "d->e between 1 and 2"]) = .ok (.conjunction t [u, v]) := by
  obtain ⟨t, ht⟩ := exists_entry_of_parse "a in (1, 'it)') -- (s\n" (by decide +kernel)
  obtain ⟨u, hu⟩ := exists_entry_of_parse "f((b) // )\r, 2) or not c" (by decide +kernel)
  obtain ⟨v, hv⟩ := exists_entry_of_parse "d->e between 1 and 2" (by decide +kernel)
  have hfilter : (["a in (1, 'it)') -- (s\n", " \t", "f((b) // )\r, 2) or not c",
      "d->e between 1 and 2"].filter fun q => !Text.isBlank q) =
      ["a in (1, 'it)') -- (s\n", "f((b) // )\r, 2) or not c", "d->e between 1 and 2"] := by
    decide +kernel
  refine ⟨t, u, v, ht.parses, hu.parses, hv.parses,
    parse_join (by decide) ?_ (by decide +kernel)⟩
  rw [hfilter]
  exact .cons ht (.cons hu (.cons hv .nil))

/-- If a query ends in a comment and no line breaks in the queries after it, the joined text is
rejected: it is never read as anything but the conjunction. -/
theorem parse_join_or_error (hlength : 2 ≤ queries.length)
    (hentries : List.Forall₂ Entry (queries.filter fun q => !Text.isBlank q) (t :: ts))
    (hbreaks : (queries.filter fun q => !Text.isBlank q).Pairwise fun q q' =>
      EndsInComment q → ∀ c ∈ q'.toList, Terminal.isBreak c = false) :
    (∃ e, parse (join queries) = .error e) ∨ parse (join queries) = .ok (.conjunction t ts) := by
  cases hqs : queries.filter fun q => !Text.isBlank q with
  | nil => simp [hqs] at hentries
  | cons q qs =>
    rw [hqs] at hentries hbreaks
    rw [join_eq hlength hqs]
    cases hfind : (q :: qs).find? (EndsInComment ·) with
    | none =>
      have hcomments := List.find?_eq_none.mp hfind
      exact Or.inr (parse_spliced hentries (by simpa using hcomments))
    | some p =>
      obtain ⟨hp, pre, post, hsplit, hpre⟩ := List.find?_eq_some_iff_append.mp hfind
      have hentry := exists_entry hentries
      rw [hsplit] at hentry hbreaks
      obtain ⟨hbefore, hafter⟩ := List.forall_mem_append.mp hentry
      obtain ⟨⟨u, hu⟩, -⟩ := List.forall_mem_cons.mp hafter
      have hcomment : EndsInComment p := by simpa using hp
      have hclosed : ∀ p' ∈ pre, ¬ EndsInComment p' := by simpa using hpre
      have hpost := (List.pairwise_cons.mp (List.pairwise_append.mp hbreaks).2.1).1
      have hopen := walk_others hbefore hclosed hu hcomment fun p' hp' => hpost p' hp' hcomment
      rw [← hsplit, ← brackets_spliced] at hopen
      cases hparse : parse (String.ofList (spliced q qs)) with
      | error e => exact Or.inl ⟨e, rfl⟩
      | ok t' =>
        have hbalanced := balanced_of_parse hparse
        rw [String.toList_ofList, hopen] at hbalanced
        simp at hbalanced

theorem parse_join_or_error_open : ∃ t u, parse "a --" = .ok t ∧ parse "b" = .ok u ∧
    ((∃ e, parse (join ["a --", "b"]) = .error e) ∨
      parse (join ["a --", "b"]) = .ok (.conjunction t [u])) := by
  obtain ⟨t, ht⟩ := exists_entry_of_parse "a --" (by decide +kernel)
  obtain ⟨u, hu⟩ := exists_entry_of_parse "b" (by decide +kernel)
  have hfilter : (["a --", "b"].filter fun q => !Text.isBlank q) = ["a --", "b"] := by
    decide +kernel
  refine ⟨t, u, ht.parses, hu.parses, parse_join_or_error (by decide) ?_ ?_⟩
  · rw [hfilter]
    exact .cons ht (.cons hu .nil)
  · rw [hfilter, List.pairwise_pair]
    intro _ c hc
    obtain rfl : c = 'b' := by simpa using hc
    rfl

/-- Where a line breaks behind the comment, its query and the next one become one group. -/
theorem parse_join_regroups : ¬ ∀ (queries : List String) (t : Node) (ts : List Node),
    2 ≤ queries.length →
    List.Forall₂ Entry (queries.filter fun q => !Text.isBlank q) (t :: ts) →
    (∃ e, parse (join queries) = .error e) ∨ parse (join queries) = .ok (.conjunction t ts) := by
  intro h
  obtain ⟨t, ht⟩ := exists_entry_of_parse "a --" (by decide +kernel)
  obtain ⟨u, hu⟩ := exists_entry_of_parse "b\nand c" (by decide +kernel)
  obtain ⟨v, hv, hgroup⟩ := exists_of_parse (join ["a --", "b\nand c"])
    (·.kind == .parentheses) (by decide +kernel)
  have hfilter : (["a --", "b\nand c"].filter fun q => !Text.isBlank q) =
      ["a --", "b\nand c"] := by
    decide +kernel
  have hentries : List.Forall₂ Entry (["a --", "b\nand c"].filter fun q => !Text.isBlank q)
      [t, u] := by
    rw [hfilter]
    exact .cons ht (.cons hu .nil)
  rcases h ["a --", "b\nand c"] t [u] (by decide) hentries with ⟨e, herror⟩ | hok
  · simp [hv] at herror
  · rw [hv, Except.ok.injEq] at hok
    subst hok
    simp [Node.conjunction, Node.kind] at hgroup

end FilterQuery
