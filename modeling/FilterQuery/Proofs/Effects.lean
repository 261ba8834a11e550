import FilterQuery.Proofs.Realizes

/-!
What the actions of the grammar make of the assembly. A draft that was read adds one operand, its
tree, and the faults of its literals. The reductions find the operands that they take, since the
rules before them have just put these there.
-/
namespace FilterQuery

namespace Draft

variable (l r low high inner : Draft) (op : Operator) (name : String)

attribute [local simp] faults literals

@[simp] theorem faults_literal (v : Literal) : (literal v).faults = v.fault?.toList := by
  cases h : v.fault? <;> simp [h]

@[simp] theorem faults_array (vs : List Literal) :
    (array vs).faults = vs.filterMap Literal.fault? := rfl

@[simp] theorem faults_identifier : (identifier name).faults = [] := rfl

@[simp] theorem faults_reference (path : Reference) : (reference path).faults = [] := rfl

@[simp] theorem faults_compare : (compare l op r).faults = l.faults ++ r.faults := by
  simp

@[simp] theorem faults_logic : (logic l op r).faults = l.faults ++ r.faults := by
  simp

@[simp] theorem faults_predicate : (predicate l op).faults = l.faults := by
  simp

@[simp] theorem faults_not : (not inner).faults = inner.faults := by
  simp

@[simp] theorem faults_parentheses : (parentheses inner).faults = inner.faults := by
  simp

@[simp] theorem faults_between :
    (between l op low high).faults = l.faults ++ (low.faults ++ high.faults) := by
  simp

@[simp] theorem faults_function (ds : List Draft) :
    (function name ds).faults = ds.flatMap faults := by
  simp only [faults, literals, literalsOfAll_eq_flatMap, List.filterMap_flatMap]
  rfl

end Draft

namespace Assembly

def putLiteral (l : Literal) (m : Assembly) : Assembly :=
  m.put (.node (.value l.value)) l.fault?.toList

def putDraft (d : Draft) (m : Assembly) : Assembly := m.put (.node d.build) d.faults

def putOperator (op : Operator) (m : Assembly) : Assembly := m.put (.node (.operation op)) []

def putName (name : String) (m : Assembly) : Assembly := m.put (.node (.identifier name)) []

def putArray (ls : List Literal) (m : Assembly) : Assembly := putDraft (.array ls) m

def putArguments (ds : List Draft) (m : Assembly) : Assembly :=
  m.put (.arguments (ds.map Draft.build)) (ds.flatMap Draft.faults)

variable {m : Assembly}

/-! ## Reductions of a fixed number of operands -/

section reductions

attribute [local simp] putDraft putOperator putName putArguments put perform effect reduceUnary
  reduceBinary reduceBetween reducePredicate reduceFunction popNode popOperator pop apply
  Effect.push Draft.build

theorem perform_compare (l : Draft) (op : Operator) (r : Draft) (m : Assembly) :
    (putDraft r (putOperator op (putDraft l m))).perform .compare =
      putDraft (.compare l op r) m := by
  simp

theorem perform_logic (l : Draft) (op : Operator) (r : Draft) (m : Assembly) :
    (putDraft r (putOperator op (putDraft l m))).perform .logic = putDraft (.logic l op r) m := by
  simp

theorem perform_between (l low high : Draft) (op : Operator) (m : Assembly) :
    (putDraft high (putDraft low (putOperator op (putDraft l m)))).perform .between =
      putDraft (.between l op low high) m := by
  simp

theorem perform_predicate (l : Draft) (op : Operator) (m : Assembly) :
    (putOperator op (putDraft l m)).perform .predicate = putDraft (.predicate l op) m := by
  simp

theorem perform_not (d : Draft) (m : Assembly) :
    (putDraft d m).perform .not = putDraft (.not d) m := by
  simp

theorem perform_parentheses (d : Draft) (m : Assembly) :
    (putDraft d m).perform .parentheses = putDraft (.parentheses d) m := by
  simp

theorem perform_function (name : String) (ds : List Draft) (m : Assembly) :
    (putArguments ds (putName name m)).perform .function =
      putDraft (.function name ds) m := by
  simp [Draft.buildAll_eq_map]

end reductions

/-! ## Groups -/

/-- Operands that are put one after the other lie on the stack in reverse. -/
theorem each_put {α : Type} (operand : α → Operand) (errors : α → List SemanticError)
    (as : List α) (m : Assembly) :
    Grammar.each (fun a m => put m (operand a) (errors a)) as m =
      ⟨(as.map operand).reverse ++ m.stack, m.marks, m.errors ++ as.flatMap errors⟩ := by
  induction as generalizing m with
  | nil => simp [Grammar.each]
  | cons a as ih =>
    have hrest := ih (m.put (operand a) (errors a))
    simp only [Grammar.each, List.foldl_cons] at hrest ⊢
    rw [hrest]
    simp [put]

theorem each_putLiteral (ls : List Literal) (m : Assembly) :
    Grammar.each putLiteral ls m =
      ⟨(ls.map fun l => .node (.value l.value)).reverse ++ m.stack, m.marks,
        m.errors ++ ls.filterMap Literal.fault?⟩ := by
  rw [List.filterMap_eq_flatMap_toList]
  exact each_put (fun l : Literal => .node (.value l.value)) (fun l => l.fault?.toList) ls m

theorem each_putDraft (ds : List Draft) (m : Assembly) :
    Grammar.each putDraft ds m =
      ⟨(ds.map fun d => .node d.build).reverse ++ m.stack, m.marks,
        m.errors ++ ds.flatMap Draft.faults⟩ :=
  each_put (fun d : Draft => .node d.build) Draft.faults ds m

theorem each_putName (names : List String) (m : Assembly) :
    Grammar.each putName names m =
      ⟨(names.map fun name => .node (.identifier name)).reverse ++ m.stack, m.marks,
        m.errors⟩ := by
  have heach : Grammar.each putName names m = _ :=
    each_put (fun name : String => .node (.identifier name)) (fun _ => []) names m
  rw [heach]
  simp

/-- A group that is closed gets exactly the operands since its marker. -/
theorem onGroup_opened (r : Reduction) (close : List Operand → List Operand → Effect)
    (group rest : List Operand) (marks : List Nat) (errors : List SemanticError) :
    onGroup ⟨group.reverse ++ rest, rest.length :: marks, errors⟩ r close =
      (marks, close group rest) := by
  simp [onGroup]

theorem perform_mark (m : Assembly) :
    m.perform .mark = ⟨m.stack, m.stack.length :: m.marks, m.errors⟩ := by
  simp [perform, effect, apply]

theorem closeArray_values (ls : List Literal) (rest : List Operand) :
    closeArray (ls.map fun l => .node (.value l.value)) rest =
      ⟨rest, [], some (.node (.value (.array (ls.map Literal.value))))⟩ := by
  have hvalues : (ls.map fun l => Operand.node (.value l.value)).filterMap Operand.value? =
      ls.map Literal.value := by
    induction ls <;> simp_all [Operand.value?, Node.value?]
  have hnone : elementErrors (ls.map fun l => .node (.value l.value)) = [] := by
    simp [elementErrors, Operand.value?, Node.value?]
  rw [closeArray, hvalues, hnone]

theorem closeArguments_nodes (ds : List Draft) (rest : List Operand) :
    closeArguments (ds.map fun d => .node d.build) rest =
      ⟨rest, [], some (.arguments (ds.map Draft.build))⟩ := by
  have hnodes : (ds.map fun d => Operand.node d.build).filterMap Operand.node? =
      ds.map Draft.build := by
    induction ds <;> simp_all [Operand.node?]
  have hnone : argumentErrors (ds.map fun d => .node d.build) = [] := by
    simp [argumentErrors, Operand.node?]
  rw [closeArguments, hnodes, hnone]

theorem perform_array (ls : List Literal) (m : Assembly) :
    (Grammar.each putLiteral ls (m.perform .mark)).perform .array = putArray ls m := by
  rw [each_putLiteral, perform_mark]
  simp only [perform, effect, apply, onGroup_opened, closeArray_values]
  simp [putArray, putDraft, put, Draft.build]

theorem perform_arguments (ds : List Draft) (m : Assembly) :
    (Grammar.each putDraft ds (m.perform .mark)).perform .arguments = putArguments ds m := by
  rw [each_putDraft, perform_mark]
  simp only [perform, effect, apply, onGroup_opened, closeArguments_nodes]
  simp [putArguments, put]

theorem chainNames_identifiers (names : List String) :
    chainNames (names.map fun name => .node (.identifier name)) = .ok names := by
  induction names with
  | nil => rfl
  | cons name names ih => simp [chainNames, ih, Except.map]

/-- The accessors of a path and the names after the head, side by side. -/
theorem chainNode_path (head : String) (steps : List (Accessor × String)) :
    chainNode (steps.map Prod.fst) (head :: steps.map Prod.snd) =
      some (Draft.ofPath head steps).build := by
  cases steps with
  | nil => rfl
  | cons step steps =>
    have hzip : (step.1 :: steps.map Prod.fst).zip (step.2 :: steps.map Prod.snd) =
        step :: steps := by
      rw [List.zip_cons_cons, List.zip_map', List.map_id'']
      simp
    simp [chainNode, Draft.ofPath, Draft.build, hzip]

theorem perform_reference (head : String) (steps : List (Accessor × String)) (m : Assembly) :
    (Grammar.each putName (head :: steps.map Prod.snd) (m.perform .mark)).perform
        (.reference (steps.map Prod.fst)) =
      putDraft (Draft.ofPath head steps) m := by
  have hfaults : (Draft.ofPath head steps).faults = [] := by cases steps <;> rfl
  have hclose : ∀ rest, closeReference (steps.map Prod.fst)
      ((head :: steps.map Prod.snd).map fun name => .node (.identifier name)) rest =
        .push (Draft.ofPath head steps).build rest := by
    intro rest
    simp only [closeReference, chainNames_identifiers, chainNode_path]
  rw [each_putName, perform_mark]
  simp only [perform, effect, apply, onGroup_opened, hclose]
  simp [putDraft, put, Effect.push, hfaults]

/-! ## What only adds -/

theorem extends_each {α : Type} {e : α → Assembly → Assembly}
    (he : ∀ a (m : Assembly), m.Extends (e a m)) (as : List α) (m : Assembly) :
    m.Extends (Grammar.each e as m) := by
  induction as generalizing m with
  | nil => exact .refl m
  | cons a as ih => exact (he a m).trans (ih (e a m))

end Assembly

end FilterQuery
