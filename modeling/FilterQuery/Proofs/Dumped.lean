import FilterQuery.Node.Dump
import FilterQuery.Proofs.Canonical
import FilterQuery.Proofs.Faults
import FilterQuery.Proofs.JsonText
import FilterQuery.Proofs.NumberText
import FilterQuery.Proofs.Soundness

/-!
The JSON form of a tree determines the tree. The elements of an array have no kind with them, so an
integer and a decimal are told apart by their texts alone; and an operator is known by its code. The
trees of queries have only known operators, and only decimals that are not spelled like integers.
-/
namespace FilterQuery

open Grammar Number

/-! ## Numbers in JSON -/

theorem isNumeral_of_mem {text : List Char} (hne : text ≠ [])
    (h : ∀ c ∈ text, c.isDigit = true ∨ c = '-' ∨ c = '.') : Json.IsNumeral text := by
  refine ⟨hne, fun c hc => ?_⟩
  rcases h c hc with hdigit | rfl | rfl
  · simp [Json.isNumeralChar, hdigit]
  · rfl
  · rfl

theorem isNumeral_integer (n : Int64) : Json.IsNumeral (Integer.spell n) := by
  have hdigits : ∀ c ∈ digits n.toInt.natAbs, c.isDigit = true ∨ c = '-' ∨ c = '.' :=
    fun c hc => Or.inl (Integer.isDigit_of_mem_digits hc)
  unfold Integer.spell
  split
  · exact isNumeral_of_mem (by simp) (List.forall_mem_cons.mpr ⟨by simp, hdigits⟩)
  · exact isNumeral_of_mem (Integer.digits_ne_nil _) hdigits

theorem isNumeral_decimal (d : Decimal) : Json.IsNumeral d.spell := by
  have hchars : ∀ c ∈ d.toMagnitude.spell, c.isDigit = true ∨ c = '-' ∨ c = '.' :=
    fun c hc => (d.toMagnitude.mem_spell hc).imp_right Or.inr
  unfold Decimal.spell
  split
  · exact isNumeral_of_mem (by simp) (List.forall_mem_cons.mpr ⟨by simp, hchars⟩)
  · exact isNumeral_of_mem d.toMagnitude.spell_ne_nil hchars

mutual

theorem Value.toJson_isNumeric : ∀ v : Value, v.toJson.IsNumeric
  | .null | .bool _ | .string _ => trivial
  | .int n => isNumeral_integer n
  | .decimal d => isNumeral_decimal d
  | .array es => Value.listToJson_allNumeric es

theorem Value.listToJson_allNumeric : ∀ vs : List Value, Json.AllNumeric (Value.listToJson vs)
  | [] => trivial
  | v :: vs => ⟨v.toJson_isNumeric, Value.listToJson_allNumeric vs⟩

end

theorem strings_allNumeric {α : Type} (text : α → String) (xs : List α) :
    Json.AllNumeric (xs.map fun x => .string (text x)) := by
  induction xs with
  | nil => trivial
  | cons x xs ih => exact ⟨trivial, ih⟩

mutual

theorem Node.toJson_isNumeric : ∀ t : Node, t.toJson.IsNumeric
  | .value v => ⟨trivial, v.toJson_isNumeric, trivial, trivial⟩
  | .operation _ | .identifier _ => ⟨trivial, trivial, trivial⟩
  | .reference r =>
    ⟨strings_allNumeric Accessor.text r.accessors, strings_allNumeric id r.names, trivial, trivial⟩
  | .compare l _ r | .logic l _ r =>
    ⟨l.toJson_isNumeric, trivial, r.toJson_isNumeric, trivial, trivial⟩
  | .predicate l _ => ⟨l.toJson_isNumeric, trivial, trivial, trivial⟩
  | .not inner | .parentheses inner => ⟨inner.toJson_isNumeric, trivial, trivial⟩
  | .between l _ low high =>
    ⟨l.toJson_isNumeric, trivial, ⟨low.toJson_isNumeric, high.toJson_isNumeric, trivial⟩, trivial,
      trivial⟩
  | .function _ params => ⟨trivial, Node.listToJson_allNumeric params, trivial, trivial⟩

theorem Node.listToJson_allNumeric : ∀ ts : List Node, Json.AllNumeric (Node.listToJson ts)
  | [] => trivial
  | t :: ts => ⟨t.toJson_isNumeric, Node.listToJson_allNumeric ts⟩

end

/-! ## Values -/

mutual

theorem Value.toJson_cancel : ∀ {v v' : Value}, (∀ d ∈ v.decimals, d.IsTelling) →
    (∀ d ∈ v'.decimals, d.IsTelling) → v.toJson = v'.toJson → v = v'
  | .null, v', _, _, h => by
    cases v' with
    | null => rfl
    | _ => cases h
  | .bool b, v', _, _, h => by
    cases v' with
    | bool b' => exact congrArg Value.bool (Json.bool.inj h)
    | _ => cases h
  | .string s, v', _, _, h => by
    cases v' with
    | string s' => exact congrArg Value.string (Json.string.inj h)
    | _ => cases h
  | .int n, v', _, hv', h => by
    cases v' with
    | int n' => exact congrArg Value.int (Integer.spell_injective (Json.number.inj h))
    | decimal d =>
      exact absurd (Json.number.inj h).symm
        (d.spell_ne_integer (hv' d (List.mem_singleton_self d)) n)
    | _ => cases h
  | .decimal d, v', hv, _, h => by
    cases v' with
    | decimal d' => exact congrArg Value.decimal (Decimal.spell_injective (Json.number.inj h))
    | int n =>
      exact absurd (Json.number.inj h) (d.spell_ne_integer (hv d (List.mem_singleton_self d)) n)
    | _ => cases h
  | .array es, v', hv, hv', h => by
    cases v' with
    | array es' => exact congrArg Value.array (Value.listToJson_cancel hv hv' (Json.array.inj h))
    | _ => cases h

theorem Value.listToJson_cancel : ∀ {vs vs' : List Value},
    (∀ d ∈ Value.decimalsOfAll vs, d.IsTelling) → (∀ d ∈ Value.decimalsOfAll vs', d.IsTelling) →
      Value.listToJson vs = Value.listToJson vs' → vs = vs'
  | [], [], _, _, _ => rfl
  | [], _ :: _, _, _, h | _ :: _, [], _, _, h => by cases h
  | v :: vs, v' :: vs', hvs, hvs', h => by
    obtain ⟨hv, hothers⟩ := List.forall_mem_append.mp hvs
    obtain ⟨hv', hothers'⟩ := List.forall_mem_append.mp hvs'
    obtain ⟨hfirst, hrest⟩ := List.cons.inj h
    rw [Value.toJson_cancel hv hv' hfirst, Value.listToJson_cancel hothers hothers' hrest]

end

/-! ## Nodes -/

theorem Operator.code_injective {op op' : Operator} (hop : op ∈ known) (hop' : op' ∈ known)
    (h : op.code = op'.code) : op = op' := by
  rw [← ofFolded_code hop, h, ofFolded_code hop']

theorem Reference.ext_names {r r' : Reference} (hnames : r.names = r'.names)
    (haccessors : r.accessors = r'.accessors) : r = r' := by
  obtain ⟨head, steps⟩ := r
  obtain ⟨head', steps'⟩ := r'
  obtain ⟨rfl, hothers⟩ := List.cons.inj hnames
  have hsteps : steps.unzip = steps'.unzip := by
    rw [List.unzip_eq_map, List.unzip_eq_map]
    exact Prod.ext haccessors hothers
  rw [← List.zip_unzip steps, hsteps, List.zip_unzip]

theorem Kind.name_injective {k k' : Kind} (h : k.name = k'.name) : k = k' := by
  cases k <;> cases k' <;> first | rfl | exact absurd h (by decide)

theorem Accessor.text_injective : Function.Injective Accessor.text := by
  intro a a' h
  cases a <;> cases a' <;> first | rfl | exact absurd h (by decide)

theorem strings_inj {α : Type} {text : α → String} (htext : Function.Injective text) {xs ys : List α}
    (h : xs.map (fun x => Json.string (text x)) = ys.map fun y => Json.string (text y)) : xs = ys :=
  List.map_injective_iff.mpr (fun _ _ heq => htext (Json.string.inj heq)) h

namespace Node

/-- The field that every node has. -/
def typeOf? : Json → Option Json
  | .object fields => fields.lookup "type"
  | _ => none

theorem typeOf?_toJson (t : Node) : typeOf? t.toJson = some (.string t.kind.name) := by
  cases t <;> rfl

theorem kind_eq {t t' : Node} (h : t.toJson = t'.toJson) : t.kind = t'.kind := by
  have htype := typeOf?_toJson t
  rw [h, typeOf?_toJson] at htype
  exact Kind.name_injective (Json.string.inj (Option.some.inj htype)).symm

mutual

/-- Operators have codes of their own, and decimals are not spelled like integers. -/
def IsLegible : Node → Prop
  | value v => ∀ d ∈ v.decimals, d.IsTelling
  | operation op => op ∈ Operator.known
  | identifier _ | reference _ => True
  | compare l op r | logic l op r => l.IsLegible ∧ op ∈ Operator.known ∧ r.IsLegible
  | predicate l op => l.IsLegible ∧ op ∈ Operator.known
  | not inner | parentheses inner => inner.IsLegible
  | between l op low high =>
    l.IsLegible ∧ op ∈ Operator.known ∧ low.IsLegible ∧ high.IsLegible
  | function _ params => AllLegible params

def AllLegible : List Node → Prop
  | [] => True
  | t :: ts => t.IsLegible ∧ AllLegible ts

end

/-- The two fields that begin every node with an operand on the left. -/
theorem operands_inj {l l' : Json} {op op' : Operator} {fields fields' : List (String × Json)}
    (hop : op ∈ Operator.known) (hop' : op' ∈ Operator.known)
    (h : Json.object (("left", l) :: ("op", .string op.code) :: fields) =
      .object (("left", l') :: ("op", .string op'.code) :: fields')) :
    l = l' ∧ op = op' ∧ Json.object fields = .object fields' := by
  obtain ⟨hl, h⟩ := Json.object_inj h
  obtain ⟨hcode, hothers⟩ := Json.object_inj h
  exact ⟨hl, Operator.code_injective hop hop' (Json.string.inj hcode), hothers⟩

mutual

/-- By induction on the first tree; the kind of the second one is that of the first. -/
theorem toJson_cancel : ∀ {t t' : Node}, t.IsLegible → t'.IsLegible → t.toJson = t'.toJson → t = t'
  | value v, t', ht, ht', h => by
    have hkind := kind_eq h
    cases t' with
    | value v' =>
      obtain ⟨-, h⟩ := Json.object_inj h
      obtain ⟨hvalue, -⟩ := Json.object_inj h
      rw [Value.toJson_cancel ht ht' hvalue]
    | _ => cases hkind
  | operation op, t', ht, ht', h => by
    have hkind := kind_eq h
    cases t' with
    | operation op' =>
      obtain ⟨hop, -⟩ := Json.object_inj h
      rw [Operator.code_injective ht ht' (Json.string.inj hop)]
    | _ => cases hkind
  | identifier name, t', _, _, h => by
    have hkind := kind_eq h
    cases t' with
    | identifier name' =>
      obtain ⟨hname, -⟩ := Json.object_inj h
      rw [Json.string.inj hname]
    | _ => cases hkind
  | reference r, t', _, _, h => by
    have hkind := kind_eq h
    cases t' with
    | reference r' =>
      obtain ⟨haccessors, h⟩ := Json.object_inj h
      obtain ⟨hnames, -⟩ := Json.object_inj h
      rw [Reference.ext_names (strings_inj Function.injective_id (Json.array.inj hnames))
        (strings_inj Accessor.text_injective (Json.array.inj haccessors))]
    | _ => cases hkind
  | compare l op r, t', ht, ht', h => by
    have hkind := kind_eq h
    cases t' with
    | compare l' op' r' =>
      obtain ⟨hl, hop, h⟩ := operands_inj ht.2.1 ht'.2.1 h
      obtain ⟨hr, -⟩ := Json.object_inj h
      rw [toJson_cancel ht.1 ht'.1 hl, hop, toJson_cancel ht.2.2 ht'.2.2 hr]
    | _ => cases hkind
  | logic l op r, t', ht, ht', h => by
    have hkind := kind_eq h
    cases t' with
    | logic l' op' r' =>
      obtain ⟨hl, hop, h⟩ := operands_inj ht.2.1 ht'.2.1 h
      obtain ⟨hr, -⟩ := Json.object_inj h
      rw [toJson_cancel ht.1 ht'.1 hl, hop, toJson_cancel ht.2.2 ht'.2.2 hr]
    | _ => cases hkind
  | predicate l op, t', ht, ht', h => by
    have hkind := kind_eq h
    cases t' with
    | predicate l' op' =>
      obtain ⟨hl, hop, -⟩ := operands_inj ht.2 ht'.2 h
      rw [toJson_cancel ht.1 ht'.1 hl, hop]
    | _ => cases hkind
  | not inner, t', ht, ht', h => by
    have hkind := kind_eq h
    cases t' with
    | not inner' =>
      have hinner : inner = inner' := toJson_cancel ht ht' (Json.object_inj h).1
      rw [hinner]
    | _ => cases hkind
  | parentheses inner, t', ht, ht', h => by
    have hkind := kind_eq h
    cases t' with
    | parentheses inner' =>
      have hinner : inner = inner' := toJson_cancel ht ht' (Json.object_inj h).1
      rw [hinner]
    | _ => cases hkind
  | between l op low high, t', ht, ht', h => by
    have hkind := kind_eq h
    cases t' with
    | between l' op' low' high' =>
      obtain ⟨hl, hop, h⟩ := operands_inj ht.2.1 ht'.2.1 h
      obtain ⟨hbounds, -⟩ := Json.object_inj h
      obtain ⟨hlow, hrest⟩ := List.cons.inj (Json.array.inj hbounds)
      obtain ⟨hhigh, -⟩ := List.cons.inj hrest
      rw [toJson_cancel ht.1 ht'.1 hl, hop, toJson_cancel ht.2.2.1 ht'.2.2.1 hlow,
        toJson_cancel ht.2.2.2 ht'.2.2.2 hhigh]
    | _ => cases hkind
  | function name params, t', ht, ht', h => by
    have hkind := kind_eq h
    cases t' with
    | function name' params' =>
      obtain ⟨hname, h⟩ := Json.object_inj h
      obtain ⟨hparams, -⟩ := Json.object_inj h
      rw [Json.string.inj hname, listToJson_cancel ht ht' (Json.array.inj hparams)]
    | _ => cases hkind

theorem listToJson_cancel : ∀ {ts ts' : List Node}, AllLegible ts → AllLegible ts' →
    listToJson ts = listToJson ts' → ts = ts'
  | [], [], _, _, _ => rfl
  | [], _ :: _, _, _, h | _ :: _, [], _, _, h => by cases h
  | t :: ts, t' :: ts', hts, hts', h => by
    obtain ⟨hfirst, hrest⟩ := List.cons.inj h
    rw [toJson_cancel hts.1 hts'.1 hfirst, listToJson_cancel hts.2 hts'.2 hrest]

end

/-! ## Trees of queries -/

theorem allLegible_iff {ts : List Node} : AllLegible ts ↔ ∀ t ∈ ts, t.IsLegible := by
  induction ts with
  | nil => simp [AllLegible]
  | cons t ts ih => simp [AllLegible, ih]

/-- The operators of a kind are known if those without a code of their own are of another kind. -/
theorem mem_known {op : Operator} (kind : Operator → Bool)
    (hkind : ∀ code, kind (.other code) = false) (hop : kind op = true) : op ∈ Operator.known := by
  cases op with
  | other code => exact absurd (hkind code) (by simp [hop])
  | _ => decide

theorem isLegible_of_shaped {level : Binding} {t : Node} (h : Shaped level t)
    (hd : ∀ d ∈ t.decimals, d.IsTelling) : t.IsLegible := by
  have hcomparisons : Operator.comparisons ⊆ Operator.known := by decide
  have hmemberships : Operator.memberships ⊆ Operator.known := by decide
  induction h with
  | ofNegation ht ih | ofComparison ht ih | ofMembership ht ih | ofPredicate ht ih
  | ofBetween ht ih | ofPrimary ht ih | not ht ih | parentheses ht ih => exact ih hd
  | logic hl hop hr ihl ihr =>
    obtain ⟨hdl, hdr⟩ := List.forall_mem_append.mp hd
    exact ⟨ihl hdl, mem_known Operator.isLogic (fun _ => rfl) hop, ihr hdr⟩
  | compare hl hop hr ihl ihr =>
    obtain ⟨hdl, hdr⟩ := List.forall_mem_append.mp hd
    exact ⟨ihl hdl, hcomparisons hop, ihr hdr⟩
  | membership hl hop hes ihl =>
    obtain ⟨hdl, hdr⟩ := List.forall_mem_append.mp hd
    exact ⟨ihl hdl, hmemberships hop, hdr⟩
  | predicate hl hop ihl =>
    exact ⟨ihl hd, mem_known Operator.isPredicate (fun _ => rfl) hop⟩
  | between hl hop hlow hhigh ihl =>
    obtain ⟨hdl, hbounds⟩ := List.forall_mem_append.mp hd
    obtain ⟨hdlow, hdhigh⟩ := List.forall_mem_append.mp hbounds
    exact ⟨ihl hdl, mem_known Operator.isRange (fun _ => rfl) hop, hdlow, hdhigh⟩
  | value hv => exact hd
  | function hname hparams ih =>
    exact allLegible_iff.mpr fun t ht =>
      ih t ht fun d hmem => hd d (mem_decimalsOfAll.mpr ⟨t, ht, hmem⟩)
  | identifier hname => trivial
  | reference hr => trivial

end Node

namespace Draft

theorem decimalsOfAll_values (ls : List Literal) :
    Value.decimalsOfAll (ls.map Literal.value) = ls.flatMap fun l => l.value.decimals := by
  induction ls with
  | nil => rfl
  | cons l ls ih => rw [List.map_cons, Value.decimalsOfAll, ih, List.flatMap_cons]

mutual

/-- The decimals of a tree are those that its literals stand for. -/
theorem decimals_build : ∀ d : Draft,
    d.build.decimals = d.literals.flatMap fun l => l.value.decimals
  | literal l => by simp [build, literals, Node.decimals]
  | array es => decimalsOfAll_values es
  | identifier _ | reference _ => rfl
  | compare l _ r | logic l _ r => by
    rw [build, literals, Node.decimals, l.decimals_build, r.decimals_build, List.flatMap_append]
  | predicate l _ => l.decimals_build
  | not inner | parentheses inner => inner.decimals_build
  | between l _ low high => by
    rw [build, literals, Node.decimals, l.decimals_build, low.decimals_build, high.decimals_build,
      List.flatMap_append, List.flatMap_append]
  | function _ params => decimals_buildAll params

theorem decimals_buildAll : ∀ ds : List Draft,
    Node.decimalsOfAll (buildAll ds) = (literalsOfAll ds).flatMap fun l => l.value.decimals
  | [] => rfl
  | d :: ds => by
    rw [buildAll, literalsOfAll, Node.decimalsOfAll, d.decimals_build, decimals_buildAll ds,
      List.flatMap_append]

end

end Draft

theorem Literal.isTelling {l : Literal} (hl : l.IsSpelled) {v : Value} (hv : l.convert = .ok v) :
    ∀ d ∈ l.value.decimals, d.IsTelling := by
  have hvalue : l.value = v := by rw [value, hv]
  rw [hvalue]
  cases l with
  | null | bool b | string content =>
    obtain rfl := Except.ok.inj hv
    simp [Value.decimals]
  | integer text =>
    rw [convert] at hv
    split at hv
    · obtain rfl := Except.ok.inj hv
      simp [Value.decimals]
    · cases hv
  | decimal text =>
    obtain ⟨sign, ds, fs, htext, hsign, ⟨hne, hds⟩, hne', hfs⟩ := hl
    rw [convert, htext] at hv
    split at hv
    · next d hread =>
      obtain rfl := Except.ok.inj hv
      intro d' hd'
      obtain rfl := List.mem_singleton.mp hd'
      exact Decimal.read_telling hsign hne hds hne' hfs hread
    · cases hv

/-- What a query gives can be told from its JSON form. -/
theorem isLegible_of_parse {q : String} {t : Node} (h : parse q = .ok t) : t.IsLegible := by
  obtain ⟨d, hread, hconverts, rfl⟩ := parse_eq_ok_iff.mp h
  refine Node.isLegible_of_shaped (shaped_of_parse h).1 ?_
  have hspelled : Spelled d.literals q.toList := hread.spelled
  intro dec hdec
  rw [d.decimals_build] at hdec
  obtain ⟨l, hl, hmem⟩ := List.mem_flatMap.mp hdec
  obtain ⟨v, hv⟩ := hconverts l hl
  exact l.isTelling (hspelled.spelled l hl) hv dec hmem

/-- Queries whose trees have the same compact JSON text have the same tree. -/
theorem parse_compact_injective {q q' : String} {t t' : Node} (h : parse q = .ok t)
    (h' : parse q' = .ok t') (hcompact : t.toJson.compact = t'.toJson.compact) : t = t' :=
  Node.toJson_cancel (isLegible_of_parse h) (isLegible_of_parse h')
    (Json.eq_of_compact_eq t.toJson_isNumeric t'.toJson_isNumeric hcompact)

/-- The last decimal has lost its point in rounding, from different digits. -/
theorem parse_compact_injective_rounded : ∃ t t',
    parse "[1, 2.50, 7922816251426433759354395033.55]" = .ok t ∧
      parse "(1,2.50,7922816251426433759354395033.5500,)" = .ok t' ∧
        t.toJson.compact = t'.toJson.compact ∧ t = t' := by
  obtain ⟨t, ht, -⟩ := exists_of_parse "[1, 2.50, 7922816251426433759354395033.55]"
    (fun _ => true) (by decide +kernel)
  obtain ⟨t', ht', -⟩ := exists_of_parse "(1,2.50,7922816251426433759354395033.5500,)"
    (fun _ => true) (by decide +kernel)
  have hsame :
      (parse "[1, 2.50, 7922816251426433759354395033.55]").toOption.map (·.toJson.write) =
        (parse "(1,2.50,7922816251426433759354395033.5500,)").toOption.map (·.toJson.write) := by
    decide +kernel
  rw [ht, ht'] at hsame
  have hcompact : t.toJson.compact = t'.toJson.compact :=
    congrArg String.ofList (Option.some.inj hsame)
  exact ⟨t, t', ht, ht', hcompact, parse_compact_injective ht ht' hcompact⟩

end FilterQuery
