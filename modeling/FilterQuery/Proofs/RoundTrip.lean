import FilterQuery.Proofs.ReadBack

/-!
The trees that queries have, and their canonical text. Parsing gives exactly the trees with the
shape of a query tree whose brackets keep to the nesting limit, and the canonical text of such a
tree, in words or in symbols, is a query for it. Both need decimals with a digit after the point:
a decimal without one is spelled like an integer.
-/
namespace FilterQuery

open Grammar Number Result

/-- The whole text is read as the draft of the tree. -/
theorem reads_render {t : Node} (h : Shaped .logic t) (hnesting : t.nesting ≤ nestingLimit)
    (hplaces : t.HasPlaces) (style : Style) :
    Reads (.limited nestingLimit) (.call .grammar) (t.render style).toList (matched t.draft []) := by
  have hclose : Closes [] := by
    rintro c ⟨⟩
  have hexpression : Reads (.limited nestingLimit) (.call .expression) (t.spell style ++ [])
      (matched t.draft []) := (readsBack_of_shaped h style).expression hplaces hnesting hclose
  have hend : Reads (.limited nestingLimit) (Peg.before Peg.gap Peg.endOfText) []
      (matched () []) := .pastGap (.absent (.charEnd _ _ _))
  rw [Node.render, String.toList_ofList, ← List.append_nil (t.spell style)]
  refine .call (.pastGap ?_)
  rw [solid_spell h hplaces style]
  exact .seq hexpression hend

/-- Canonical text of a tree with the shape of a query tree is a query for it. -/
theorem parse_render_of_shaped {t : Node} (h : Shaped .logic t) (hnesting : t.nesting ≤ nestingLimit)
    (hplaces : t.HasPlaces) (style : Style) : parse (t.render style) = .ok t := by
  have hread := reads_render h hnesting hplaces style
  have hdrafted := isDrafted_of_shaped h hplaces
  exact parse_eq_ok_iff.mpr ⟨t.draft, hread, hdrafted.converts, hdrafted.build⟩

/-- A tree that was parsed is parsed again from its canonical text in either style. -/
theorem parse_render {q : String} {t : Node} (h : parse q = .ok t)
    (hplaces : ∀ d ∈ t.decimals, 1 ≤ d.scale) (style : Style) : parse (t.render style) = .ok t := by
  obtain ⟨hshaped, hnesting⟩ := shaped_of_parse h
  exact parse_render_of_shaped hshaped hnesting hplaces style

theorem parse_render_keywords : ∃ t,
    parse "and and and or not is.is->not_ like [1.50, \"'\",] && f(a like between,)" = .ok t ∧
      parse (t.render .symbol) = .ok t := by
  obtain ⟨t, ht, hplaces⟩ := exists_of_parse
    "and and and or not is.is->not_ like [1.50, \"'\",] && f(a like between,)"
    (fun t => t.decimals.all (1 ≤ ·.scale)) (by decide +kernel)
  exact ⟨t, ht, parse_render ht (by simpa using hplaces) .symbol⟩

/-- The trees of queries are those with the shape of a query tree, within the nesting limit. -/
theorem parse_image {t : Node} (hplaces : ∀ d ∈ t.decimals, 1 ≤ d.scale) :
    (∃ q, parse q = .ok t) ↔ Shaped .logic t ∧ t.nesting ≤ nestingLimit := by
  constructor
  · rintro ⟨q, h⟩
    exact shaped_of_parse h
  · rintro ⟨hshaped, hnesting⟩
    exact ⟨t.render .word, parse_render_of_shaped hshaped hnesting hplaces .word⟩

theorem parse_image_between : ∃ q, parse q = .ok
    (.between (.identifier "and") .notBetween
      (.value (.decimal (.ofMagnitude true ⟨15, 1, by decide, by decide⟩)))
      (.value (.array [.string "it's", .null]))) := by
  have hname : IsHead "and" := ⟨⟨⟨'a', ['n', 'd'], rfl, rfl,
    List.all_eq_true.mp (by decide)⟩, by decide⟩, by decide⟩
  have hlist : (Value.array [.string "it's", .null]).IsFlat := by
    simp [Value.IsFlat, Value.IsScalar]
  refine (parse_image (by decide +kernel)).mpr ⟨?_, by decide +kernel⟩
  exact .ofNegation <| .ofComparison <| .ofMembership <| .ofPredicate <| .ofBetween <|
    .between (.identifier hname) rfl trivial hlist

end FilterQuery
