import FilterQuery.Proofs.Spellings

/-!
The draft that canonical text has. For a node with the shape of a query tree whose decimals have a
digit after the point, building the draft gives the node back, and its text begins with no gap.
-/
namespace FilterQuery

open Grammar Number

namespace Node

/-- Every decimal has a digit after the point. -/
def HasPlaces (t : Node) : Prop := ∀ d ∈ t.decimals, 1 ≤ d.scale

mutual

/-- The draft that the canonical text of the node has. An operator alone has none. -/
def draft : Node → Draft
  | value v => v.draft
  | operation op => .identifier op.code
  | identifier name => .identifier name
  | reference r => .reference r
  | compare l op r => .compare l.draft op r.draft
  | logic l op r => .logic l.draft op r.draft
  | predicate l op => .predicate l.draft op
  | not inner => .not inner.draft
  | parentheses inner => .parentheses inner.draft
  | between l op low high => .between l.draft op low.draft high.draft
  | function name params => .function name (draftAll params)

def draftAll : List Node → List Draft
  | [] => []
  | n :: ns => n.draft :: draftAll ns

end

theorem draftAll_eq_map (ns : List Node) : draftAll ns = ns.map draft := by
  induction ns with
  | nil => rfl
  | cons n ns ih => rw [draftAll, ih, List.map_cons]

theorem mem_decimalsOfAll {ns : List Node} {d : Decimal} :
    d ∈ decimalsOfAll ns ↔ ∃ n ∈ ns, d ∈ n.decimals := by
  induction ns with
  | nil => simp [decimalsOfAll]
  | cons n ns ih => simp [decimalsOfAll, ih]

theorem nestingOfAll_le_iff {ns : List Node} {k : Nat} :
    nestingOfAll ns ≤ k ↔ ∀ n ∈ ns, n.nesting ≤ k := by
  induction ns with
  | nil => simp [nestingOfAll]
  | cons n ns ih => simp [nestingOfAll, ih]

theorem nesting_le_of_mem {ns : List Node} {n : Node} (hn : n ∈ ns) :
    n.nesting ≤ nestingOfAll ns :=
  nestingOfAll_le_iff.mp le_rfl n hn

/-- The parameters after the first, each behind a comma. -/
theorem spellRest_eq (style : Style) (ns : List Node) :
    spellRest style ns = ns.flatMap fun n => ", ".toList ++ n.spell style := by
  induction ns with
  | nil => rfl
  | cons n ns ih => rw [spellRest, ih, List.flatMap_cons]

theorem spellList_eq (style : Style) (ns : List Node) :
    spellList style ns = joined (spell style) ns := by
  cases ns with
  | nil => rfl
  | cons n ns => rw [spellList, spellRest_eq, joined]

namespace HasPlaces

variable {l r t : Node} {op : Operator}

theorem compare (h : (Node.compare l op r).HasPlaces) : l.HasPlaces ∧ r.HasPlaces :=
  List.forall_mem_append.mp h

theorem logic (h : (Node.logic l op r).HasPlaces) : l.HasPlaces ∧ r.HasPlaces :=
  List.forall_mem_append.mp h

theorem between {low high : Node} (h : (Node.between l op low high).HasPlaces) :
    l.HasPlaces ∧ low.HasPlaces ∧ high.HasPlaces := by
  obtain ⟨hl, hbounds⟩ := List.forall_mem_append.mp h
  exact ⟨hl, List.forall_mem_append.mp hbounds⟩

theorem param {name : String} {params : List Node} (h : (function name params).HasPlaces)
    (ht : t ∈ params) : t.HasPlaces :=
  fun d hd => h d (mem_decimalsOfAll.mpr ⟨t, ht, hd⟩)

end HasPlaces

end Node

/-! ## Building the draft -/

/-- The draft of the node converts, and gives the node. -/
structure IsDrafted (t : Node) : Prop where
  converts : t.draft.Converts
  build : t.draft.build = t

namespace IsDrafted

variable {l r t low high : Node} {op : Operator}

theorem value {v : Value} (hv : v.IsFlat) (hplaces : (Node.value v).HasPlaces) :
    IsDrafted (.value v) :=
  ⟨v.draft_converts hv hplaces, v.build_draft hv hplaces⟩

theorem compare (hl : IsDrafted l) (hr : IsDrafted r) : IsDrafted (.compare l op r) where
  converts := List.forall_mem_append.mpr ⟨hl.converts, hr.converts⟩
  build := by rw [Node.draft, Draft.build, hl.build, hr.build]

theorem logic (hl : IsDrafted l) (hr : IsDrafted r) : IsDrafted (.logic l op r) where
  converts := List.forall_mem_append.mpr ⟨hl.converts, hr.converts⟩
  build := by rw [Node.draft, Draft.build, hl.build, hr.build]

theorem between (hl : IsDrafted l) (hlow : IsDrafted low) (hhigh : IsDrafted high) :
    IsDrafted (.between l op low high) where
  converts := List.forall_mem_append.mpr
    ⟨hl.converts, List.forall_mem_append.mpr ⟨hlow.converts, hhigh.converts⟩⟩
  build := by rw [Node.draft, Draft.build, hl.build, hlow.build, hhigh.build]

theorem function {name : String} {params : List Node} (h : ∀ t ∈ params, IsDrafted t) :
    IsDrafted (.function name params) where
  converts := by
    intro literal hliteral
    rw [Node.draft, Draft.literals, Draft.literalsOfAll_eq_flatMap, Node.draftAll_eq_map] at hliteral
    obtain ⟨d, hd, hliteral⟩ := List.mem_flatMap.mp hliteral
    obtain ⟨t, ht, rfl⟩ := List.mem_map.mp hd
    exact (h t ht).converts literal hliteral
  build := by
    have hself : (params.map Node.draft).map Draft.build = params := by
      rw [List.map_map]
      exact (List.map_congr_left fun t ht => (h t ht).build).trans (List.map_id params)
    rw [Node.draft, Draft.build, Draft.buildAll_eq_map, Node.draftAll_eq_map, hself]

end IsDrafted

theorem isDrafted_of_shaped {level : Binding} {t : Node} (h : Shaped level t)
    (hplaces : t.HasPlaces) : IsDrafted t := by
  induction h with
  | ofNegation _ ih | ofComparison _ ih | ofMembership _ ih | ofPredicate _ ih | ofBetween _ ih
  | ofPrimary _ ih => exact ih hplaces
  | logic hl hop hr ihl ihr =>
    obtain ⟨hplacesl, hplacesr⟩ := hplaces.logic
    exact (ihl hplacesl).logic (ihr hplacesr)
  | compare hl hop hr ihl ihr =>
    obtain ⟨hplacesl, hplacesr⟩ := hplaces.compare
    exact (ihl hplacesl).compare (ihr hplacesr)
  | @membership l op es hl hop hes ihl =>
    obtain ⟨hplacesl, hplacesr⟩ := hplaces.compare
    have hflat : (Value.array es).IsFlat := hes
    exact (ihl hplacesl).compare (.value hflat hplacesr)
  | not ht ih | parentheses ht ih =>
    have hinner := ih hplaces
    exact ⟨hinner.converts, by rw [Node.draft, Draft.build, hinner.build]⟩
  | predicate hl hop ihl =>
    have hinner := ihl hplaces
    exact ⟨hinner.converts, by rw [Node.draft, Draft.build, hinner.build]⟩
  | between hl hop hlow hhigh ihl =>
    obtain ⟨hplacesl, hplacesLow, hplacesHigh⟩ := hplaces.between
    exact (ihl hplacesl).between (.value hlow hplacesLow) (.value hhigh hplacesHigh)
  | value hv => exact .value hv hplaces
  | function hname hparams ih => exact .function fun t ht => ih t ht (hplaces.param ht)
  | identifier hname | reference hr =>
    exact ⟨by simp [Draft.Converts, Node.draft, Draft.literals], rfl⟩

/-! ## The beginning of the text -/

theorem solid_name {name : String} (hname : IsName name) : Solid name.toList := by
  obtain ⟨c, others, hletters, hc, -⟩ := hname.letters
  rw [hletters]
  exact solid_firm (isFirm_of Char.isAlpha (by decide) hc) _

/-- Canonical text begins with no gap. -/
theorem solid_spell {level : Binding} {t : Node} (h : Shaped level t) (hplaces : t.HasPlaces)
    (style : Style) : Solid (t.spell style) := by
  induction h with
  | ofNegation _ ih | ofComparison _ ih | ofMembership _ ih | ofPredicate _ ih | ofBetween _ ih
  | ofPrimary _ ih => exact ih hplaces
  | logic hl hop hr ihl ihr => exact ((ihl hplaces.logic.1).append _).append _
  | compare hl hop hr ihl ihr => exact ((ihl hplaces.compare.1).append _).append _
  | membership hl hop hes ihl => exact ((ihl hplaces.compare.1).append _).append _
  | predicate hl hop ihl => exact (ihl hplaces).append _
  | between hl hop hlow hhigh ihl =>
    exact ((((ihl hplaces.between.1).append _).append _).append _).append _
  | not ht ih | parentheses ht ih => exact solid_firm (by decide) _
  | value hv => exact solid_value hv hplaces
  | function hname hparams ih => exact ((solid_name hname.toIsName).append _).append _
  | identifier hname => exact solid_name hname.toIsName
  | reference hr => exact (solid_name hr.head.toIsName).append _

end FilterQuery
