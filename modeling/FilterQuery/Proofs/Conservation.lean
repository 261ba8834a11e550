import FilterQuery.Assembly
import Mathlib.Data.List.Basic

/-!
Nothing gets lost while a tree is put together. The leaves of an assembly are the names, operators
and scalars of its operands, the operands from the bottom up and each of them from left to right.
An action that records no error adds the leaf that it pushes, or builds a new operand out of some
of the leaves without touching their order. This does not depend on where the markers are.
-/
namespace FilterQuery

open Number

/-- A part of a tree that no reduction makes. -/
inductive Leaf where
  | name (text : String)
  | operator (op : Operator)
  | scalar (v : Value)
deriving Repr

namespace Value

mutual

/-- An array has the leaves of its elements; any other value is a leaf. -/
def leaves : Value → List Leaf
  | array es => leavesOfAll es
  | int n => [.scalar (.int n)]
  | decimal d => [.scalar (.decimal d)]
  | bool b => [.scalar (.bool b)]
  | string s => [.scalar (.string s)]
  | null => [.scalar .null]

def leavesOfAll : List Value → List Leaf
  | [] => []
  | v :: vs => v.leaves ++ leavesOfAll vs

end

theorem leavesOfAll_eq_flatMap (vs : List Value) : leavesOfAll vs = vs.flatMap leaves := by
  induction vs with
  | nil => rfl
  | cons v vs ih => rw [leavesOfAll, ih, List.flatMap_cons]

end Value

namespace Node

mutual

/-- The leaves of a tree from left to right. -/
def leaves : Node → List Leaf
  | value v => v.leaves
  | operation op => [.operator op]
  | identifier name => [.name name]
  | reference r => r.names.map .name
  | compare l op r | logic l op r => l.leaves ++ .operator op :: r.leaves
  | predicate l op => l.leaves ++ [.operator op]
  | not inner | parentheses inner => inner.leaves
  | between l op low high => l.leaves ++ .operator op :: (low.leaves ++ high.leaves)
  | function name params => .name name :: leavesOfAll params

def leavesOfAll : List Node → List Leaf
  | [] => []
  | n :: ns => n.leaves ++ leavesOfAll ns

end

theorem leavesOfAll_eq_flatMap (ns : List Node) : leavesOfAll ns = ns.flatMap leaves := by
  induction ns with
  | nil => rfl
  | cons n ns ih => rw [leavesOfAll, ih, List.flatMap_cons]

end Node

/-- The leaf that an action adds: every one that pushes a leaf has it, also where a placeholder
stands in for a literal that cannot be read. -/
def Action.leaf? : Action → Option Leaf
  | name text => some (.name text)
  | operation raw => some (.operator (.ofSpelling raw))
  | integer text => some (.scalar (.int ((Integer.read text.toList).toOption.getD 0)))
  | decimal text => some (.scalar (.decimal ((Decimal.read text.toList).toOption.getD .zero)))
  | boolean text => some (.scalar (.bool ((Assembly.boolean? text).getD false)))
  | string text => some (.scalar (.string text))
  | null => some (.scalar .null)
  | mark | array | arguments | reference _ | function | compare | logic | between | predicate
  | not | parentheses => none

def Operand.leaves : Operand → List Leaf
  | node n => n.leaves
  | arguments params => Node.leavesOfAll params

/-- The leaves of a stack with its top first, read from the bottom. -/
def leavesUpTo (stack : List Operand) : List Leaf := stack.reverse.flatMap Operand.leaves

@[simp] theorem leavesUpTo_nil : leavesUpTo [] = [] := rfl

@[simp] theorem leavesUpTo_cons (o : Operand) (rest : List Operand) :
    leavesUpTo (o :: rest) = leavesUpTo rest ++ o.leaves := by
  simp [leavesUpTo]

theorem leavesUpTo_append (above rest : List Operand) :
    leavesUpTo (above ++ rest) = leavesUpTo rest ++ leavesUpTo above := by
  simp [leavesUpTo]

def Assembly.leaves (m : Assembly) : List Leaf := leavesUpTo m.stack

/-! ## Effects -/

/-- Unless it records an error, the effect leaves a stack with these leaves. -/
def Effect.Leaves (e : Effect) (ls : List Leaf) : Prop :=
  e.errors = [] → leavesUpTo (e.pushed.toList ++ e.rest) = ls

namespace Effect

variable {ls : List Leaf} {stack rest : List Operand}

theorem leaves_refuse (e : SemanticError) : (refuse e rest).Leaves ls :=
  fun h => absurd h (List.cons_ne_nil _ _)

theorem leaves_push {n : Node} (h : leavesUpTo rest ++ n.leaves = ls) : (push n rest).Leaves ls :=
  fun _ => (leavesUpTo_cons _ _).trans h

end Effect

namespace Assembly

variable {ls : List Leaf} {r : Reduction} {stack : List Operand}

/-! ### Reductions of a fixed number of operands -/

theorem leaves_pop {k : Operand → List Operand → Effect}
    (h : ∀ o rest, leavesUpTo rest ++ o.leaves = leavesUpTo stack → (k o rest).Leaves ls) :
    (pop r stack k).Leaves ls := by
  cases stack with
  | nil => exact Effect.leaves_refuse _
  | cons o rest => exact h o rest (leavesUpTo_cons o rest).symm

theorem leaves_popNode {k : Node → List Operand → Effect}
    (h : ∀ n rest, leavesUpTo rest ++ n.leaves = leavesUpTo stack → (k n rest).Leaves ls) :
    (popNode r stack k).Leaves ls := by
  refine leaves_pop fun o rest hstack => ?_
  cases o with
  | node n => exact h n rest hstack
  | arguments params => exact Effect.leaves_refuse _

theorem leaves_popOperator {k : Operator → List Operand → Effect}
    (h : ∀ op rest, leavesUpTo rest ++ [.operator op] = leavesUpTo stack → (k op rest).Leaves ls) :
    (popOperator r stack k).Leaves ls := by
  refine leaves_pop fun o rest hstack => ?_
  split
  · next op => exact h op rest hstack
  · exact Effect.leaves_refuse _

theorem leaves_reduceBinary {make : Node → Operator → Node → Node}
    (hmake : ∀ left op right,
      (make left op right).leaves = left.leaves ++ .operator op :: right.leaves) :
    (reduceBinary r make stack).Leaves (leavesUpTo stack) := by
  refine leaves_popNode fun right below hright => ?_
  refine leaves_popOperator fun op below' hop => ?_
  refine leaves_popNode fun left rest hleft => Effect.leaves_push ?_
  rw [hmake, ← hright, ← hop, ← hleft]
  simp

theorem leaves_reduceBetween : (reduceBetween stack).Leaves (leavesUpTo stack) := by
  refine leaves_popNode fun high below hhigh => ?_
  refine leaves_popNode fun low below' hlow => ?_
  refine leaves_popOperator fun op below'' hop => ?_
  refine leaves_popNode fun left rest hleft => Effect.leaves_push ?_
  rw [Node.leaves, ← hhigh, ← hlow, ← hop, ← hleft]
  simp

theorem leaves_reducePredicate : (reducePredicate stack).Leaves (leavesUpTo stack) := by
  refine leaves_popOperator fun op below hop => ?_
  refine leaves_popNode fun left rest hleft => Effect.leaves_push ?_
  rw [Node.leaves, ← hop, ← hleft]
  simp

theorem leaves_reduceUnary {make : Node → Node} (hmake : ∀ n, (make n).leaves = n.leaves) :
    (reduceUnary r make stack).Leaves (leavesUpTo stack) := by
  refine leaves_popNode fun inner rest hinner => Effect.leaves_push ?_
  rw [hmake, hinner]

theorem leaves_reduceFunction : (reduceFunction stack).Leaves (leavesUpTo stack) := by
  refine leaves_pop fun arguments below harguments => ?_
  refine leaves_pop fun head rest hhead => ?_
  split
  · next name params =>
    refine Effect.leaves_push ?_
    rw [Node.leaves, ← harguments, ← hhead]
    simp [Operand.leaves, Node.leaves]
  · exact Effect.leaves_refuse _

/-! ### Groups -/

variable {group rest : List Operand}

/-- Where every operand of a group yields a part with all its leaves, the parts have all leaves of
the group. -/
theorem leaves_filterMap {α : Type} {part? : Operand → Option α} {leaves : α → List Leaf}
    (hpart : ∀ o a, part? o = some a → o.leaves = leaves a)
    (hall : (group.filter fun o => (part? o).isNone) = []) :
    (group.filterMap part?).flatMap leaves = group.flatMap Operand.leaves := by
  induction group with
  | nil => rfl
  | cons o os ih =>
    cases ho : part? o with
    | none => simp [ho] at hall
    | some a =>
      have hos : (os.filter fun o => (part? o).isNone) = [] := by simpa [ho] using hall
      rw [List.filterMap_cons_some ho, List.flatMap_cons, List.flatMap_cons, ih hos, hpart o a ho]

theorem leaves_closeArray :
    (closeArray group rest).Leaves (leavesUpTo rest ++ group.flatMap Operand.leaves) := by
  intro herrors
  have hvalue : ∀ o v, Operand.value? o = some v → o.leaves = v.leaves := by
    intro o v ho
    cases o with
    | arguments params => simp [Operand.value?] at ho
    | node n => cases n <;> simp_all [Operand.value?, Node.value?, Operand.leaves, Node.leaves]
  have hleaves := leaves_filterMap hvalue (List.map_eq_nil_iff.mp herrors)
  rw [← Value.leavesOfAll_eq_flatMap] at hleaves
  rw [← hleaves]
  exact leavesUpTo_cons _ _

theorem leaves_closeArguments :
    (closeArguments group rest).Leaves (leavesUpTo rest ++ group.flatMap Operand.leaves) := by
  intro herrors
  have hnode : ∀ o n, Operand.node? o = some n → o.leaves = n.leaves := by
    intro o n ho
    cases o with
    | arguments params => simp [Operand.node?] at ho
    | node n' => exact congrArg Node.leaves (Option.some.inj ho)
  have hleaves := leaves_filterMap hnode (List.map_eq_nil_iff.mp herrors)
  rw [← Node.leavesOfAll_eq_flatMap] at hleaves
  rw [← hleaves]
  exact leavesUpTo_cons _ _

theorem leaves_chainNames {names : List String} (h : chainNames group = .ok names) :
    group.flatMap Operand.leaves = names.map .name := by
  fun_induction chainNames group generalizing names with
  | case1 =>
    obtain rfl : [] = names := by simpa using h
    rfl
  | case2 name os ih =>
    cases hos : chainNames os with
    | error o => simp [hos, Except.map] at h
    | ok others =>
      obtain rfl : name :: others = names := by simpa [hos, Except.map] using h
      simp [ih hos, Operand.leaves, Node.leaves]
  | case3 => simp at h

theorem leaves_chainNode {accessors : List Accessor} {names : List String} {n : Node}
    (h : chainNode accessors names = some n) : n.leaves = names.map .name := by
  unfold chainNode at h
  split at h
  · obtain rfl := Option.some.inj h
    rfl
  · next head others _ =>
    split at h
    · next hlength =>
      obtain rfl := Option.some.inj h
      have hnames : (accessors.zip others).map Prod.snd = others :=
        List.map_snd_zip (by omega)
      simp [Node.leaves, Reference.names, hnames]
    · simp at h
  · simp at h

theorem leaves_closeReference (accessors : List Accessor) :
    (closeReference accessors group rest).Leaves
      (leavesUpTo rest ++ group.flatMap Operand.leaves) := by
  unfold closeReference
  split
  · exact Effect.leaves_refuse _
  · next names hnames =>
    split
    · next n hn =>
      refine Effect.leaves_push ?_
      rw [leaves_chainNode hn, leaves_chainNames hnames]
    · exact Effect.leaves_refuse _

/-- Wherever the marker is, the group and what lies below it are all of the stack. -/
theorem leaves_onGroup {m : Assembly} {close : List Operand → List Operand → Effect}
    (hclose : ∀ group rest,
      (close group rest).Leaves (leavesUpTo rest ++ group.flatMap Operand.leaves)) :
    (m.onGroup r close).2.Leaves m.leaves := by
  unfold onGroup
  split
  · exact Effect.leaves_refuse _
  · next mark marks _ =>
    split
    · have hsplit := leavesUpTo_append (m.stack.take (m.stack.length - mark))
        (m.stack.drop (m.stack.length - mark))
      rw [List.take_append_drop] at hsplit
      rw [leaves, hsplit]
      exact hclose _ _
    · exact Effect.leaves_refuse _

/-! ## Runs -/

/-- An action adds its leaf, if it has one, and keeps all others in their order. -/
theorem leaves_effect (m : Assembly) (a : Action) :
    (m.effect a).2.Leaves (m.leaves ++ a.leaf?.toList) := by
  have hkept : ∀ {e : Effect}, e.Leaves m.leaves →
      e.Leaves (m.leaves ++ (none : Option Leaf).toList) := fun h =>
    (List.append_nil m.leaves).symm ▸ h
  cases a with
  | name text => exact Effect.leaves_push rfl
  | operation raw => exact Effect.leaves_push rfl
  | string text => exact Effect.leaves_push rfl
  | null => exact Effect.leaves_push rfl
  | integer text =>
    simp only [effect, addInteger, Action.leaf?]
    split
    · next hread => exact Effect.leaves_push (by rw [hread]; rfl)
    · exact fun herrors => absurd herrors (List.cons_ne_nil _ _)
  | decimal text =>
    simp only [effect, addDecimal, Action.leaf?]
    split
    · next hread => exact Effect.leaves_push (by rw [hread]; rfl)
    · exact fun herrors => absurd herrors (List.cons_ne_nil _ _)
  | boolean text =>
    simp only [effect, addBoolean, Action.leaf?]
    split
    · next hread => exact Effect.leaves_push (by rw [hread]; rfl)
    · exact fun herrors => absurd herrors (List.cons_ne_nil _ _)
  | mark => exact hkept fun _ => rfl
  | array => exact hkept (leaves_onGroup fun _ _ => leaves_closeArray)
  | arguments => exact hkept (leaves_onGroup fun _ _ => leaves_closeArguments)
  | reference accessors => exact hkept (leaves_onGroup fun _ _ => leaves_closeReference accessors)
  | function => exact hkept leaves_reduceFunction
  | compare => exact hkept (leaves_reduceBinary fun _ _ _ => rfl)
  | logic => exact hkept (leaves_reduceBinary fun _ _ _ => rfl)
  | between => exact hkept leaves_reduceBetween
  | predicate => exact hkept leaves_reducePredicate
  | not => exact hkept (leaves_reduceUnary fun _ => rfl)
  | parentheses => exact hkept (leaves_reduceUnary fun _ => rfl)

theorem leaves_perform (m : Assembly) (a : Action) (h : (m.perform a).errors = []) :
    m.errors = [] ∧ (m.perform a).leaves = m.leaves ++ a.leaf?.toList := by
  obtain ⟨hbefore, heffect⟩ := List.append_eq_nil_iff.mp h
  exact ⟨hbefore, leaves_effect m a heffect⟩

/-- Errors stay, so a run that ends without any has had none after any of its actions. -/
theorem leaves_run (m : Assembly) (actions : List Action) (h : (m.run actions).errors = []) :
    m.errors = [] ∧ (m.run actions).leaves = m.leaves ++ actions.filterMap Action.leaf? := by
  induction actions generalizing m with
  | nil => exact ⟨h, (List.append_nil m.leaves).symm⟩
  | cons a actions ih =>
    obtain ⟨hfirst, hothers⟩ := ih (m.perform a) h
    obtain ⟨hbefore, hleaves⟩ := leaves_perform m a hfirst
    refine ⟨hbefore, ?_⟩
    have hrun : m.run (a :: actions) = (m.perform a).run actions := rfl
    rw [hrun, hothers, hleaves, List.append_assoc]
    cases ha : a.leaf? <;> simp [ha]

theorem leaves_finish {m : Assembly} {root : Node} (h : m.finish.1 = .ok root) :
    root.leaves = m.leaves := by
  unfold finish at h
  split at h
  · simp at h
  · next n _ hstack =>
    obtain rfl : n = root := by simpa using h
    simp [leaves, hstack, Operand.leaves]
  · simp at h

/-- Actions in any order, groups opened and closed anyhow: as long as no error is recorded, the
operands hold one leaf for each action that adds one, in the order of these actions. The same goes
for the tree, if one is finished. -/
theorem run_conserves {actions : List Action} (h : (empty.run actions).errors = []) :
    (empty.run actions).leaves = actions.filterMap Action.leaf? ∧
      ∀ root, (empty.run actions).finish.1 = .ok root →
        root.leaves = actions.filterMap Action.leaf? := by
  obtain ⟨-, hleaves⟩ := leaves_run empty actions h
  exact ⟨hleaves, fun root hroot => (leaves_finish hroot).trans hleaves⟩

/-- A marker that is never used does no harm. -/
theorem run_conserves_open_marker : ∃ actions root,
    actions = [.mark, .name "f", .mark, .name "a", .operation "=", .integer "1", .compare,
      .arguments, .function] ∧
    (empty.run actions).errors = [] ∧ (empty.run actions).finish.1 = .ok root ∧
      root.leaves = actions.filterMap Action.leaf? := by
  have herrors : (empty.run [.mark, .name "f", .mark, .name "a", .operation "=", .integer "1",
      .compare, .arguments, .function]).errors = [] := by decide +kernel
  have hfinish : (empty.run [.mark, .name "f", .mark, .name "a", .operation "=", .integer "1",
      .compare, .arguments, .function]).finish.1 =
      .ok (.function "f" [.compare (.identifier "a") (.ofSpelling "=") (.value (.int 1))]) := rfl
  exact ⟨_, _, rfl, herrors, hfinish, (run_conserves herrors).2 _ hfinish⟩

end Assembly

end FilterQuery
