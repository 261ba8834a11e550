import FilterQuery.Journal

/-!
Putting a tree together from the bottom up. Leaves are pushed on an operand stack and reductions
replace the operands on top by the node made of them. A group of any length (array, argument
list, name chain) opens a marker first and later takes all operands above it. An action that
cannot be carried out records an error, and what it has popped by then is gone.

The assembly can be taken back to an earlier point by cutting its three lists to the lengths they
had there. That restores it exactly as long as nothing below the cut was popped in between.
-/
namespace FilterQuery

open Number

inductive Operand where
  | node (n : Node)
  | arguments (params : List Node)
deriving Repr

namespace Operand

def kind : Operand → Kind
  | node n => n.kind
  | arguments _ => .argumentList

def node? : Operand → Option Node
  | node n => some n
  | arguments _ => none

def value? : Operand → Option Value
  | node n => n.value?
  | arguments _ => none

/-- The journal entry for an operand that a reduction has just pushed. -/
def note : Operand → Option Event
  | arguments params => some (.reducedArguments params.length)
  | node (.value (.array es)) => some (.reducedArray es.length)
  | node (.function name params) => some (.reducedFunction name params.length)
  | node (.compare _ op _) => some (.reducedCompare op)
  | node (.logic _ op _) => some (.reducedLogic op)
  | node (.between _ op _ _) => some (.reducedBetween op)
  | node (.predicate _ op) => some (.reducedPredicate op)
  | node _ => none

end Operand

inductive Action where
  | name (text : String)
  | operation (raw : String)
  | integer (text : String)
  | decimal (text : String)
  | boolean (text : String)
  | string (text : String)
  | null
  | mark
  | array
  | arguments
  | reference (accessors : List Accessor)
  | function
  | compare
  | logic
  | between
  | predicate
  | not
  | parentheses
deriving DecidableEq, Repr

/-- What an action leaves of the stack, the errors it records and the operand it pushes. -/
structure Effect where
  rest : List Operand
  errors : List SemanticError
  pushed : Option Operand
deriving Repr

namespace Effect

def push (n : Node) (rest : List Operand) : Effect := ⟨rest, [], some (.node n)⟩

def refuse (e : SemanticError) (rest : List Operand) : Effect := ⟨rest, [e], none⟩

def events (e : Effect) : List Event :=
  e.errors.map .recorded ++ (e.pushed.bind Operand.note).toList

end Effect

/-- The stacks have their tops first; the errors are in the order in which they arose. -/
structure Assembly where
  stack : List Operand
  marks : List Nat
  errors : List SemanticError
deriving Repr

namespace Assembly

def empty : Assembly := ⟨[], [], []⟩

/-! Leaves. A literal that cannot be read is recorded, and a zero or `false` stands in for it. -/

def addInteger (text : String) (stack : List Operand) : Effect :=
  match Integer.read text.toList with
  | .ok n => .push (.value (.int n)) stack
  | .error fault => ⟨stack, [.integer text fault], some (.node (.value (.int 0)))⟩

def addDecimal (text : String) (stack : List Operand) : Effect :=
  match Decimal.read text.toList with
  | .ok d => .push (.value (.decimal d)) stack
  | .error fault => ⟨stack, [.decimal text fault], some (.node (.value (.decimal .zero)))⟩

def boolean? (text : String) : Option Bool :=
  if text = "true" ∨ text = "TRUE" then some true
  else if text = "false" ∨ text = "FALSE" then some false
  else none

def addBoolean (text : String) (stack : List Operand) : Effect :=
  match boolean? text with
  | some b => .push (.value (.bool b)) stack
  | none => ⟨stack, [.boolean text], some (.node (.value (.bool false)))⟩

/-! Reductions of a fixed number of operands. -/

def pop (r : Reduction) (stack : List Operand) (k : Operand → List Operand → Effect) : Effect :=
  match stack with
  | [] => .refuse (.underflow r) []
  | o :: rest => k o rest

def popNode (r : Reduction) (stack : List Operand) (k : Node → List Operand → Effect) : Effect :=
  pop r stack fun o rest =>
    match o with
    | .node n => k n rest
    | .arguments _ => .refuse (.unexpected r .expression o.kind) rest

def popOperator (r : Reduction) (stack : List Operand) (k : Operator → List Operand → Effect) :
    Effect :=
  pop r stack fun o rest =>
    match o with
    | .node (.operation op) => k op rest
    | _ => .refuse (.unexpected r .operation o.kind) rest

def reduceBinary (r : Reduction) (make : Node → Operator → Node → Node) (stack : List Operand) :
    Effect :=
  popNode r stack fun right stack =>
    popOperator r stack fun op stack =>
      popNode r stack fun left stack => .push (make left op right) stack

def reduceBetween (stack : List Operand) : Effect :=
  popNode .between stack fun high stack =>
    popNode .between stack fun low stack =>
      popOperator .between stack fun op stack =>
        popNode .between stack fun left stack => .push (.between left op low high) stack

def reducePredicate (stack : List Operand) : Effect :=
  popOperator .predicate stack fun op stack =>
    popNode .predicate stack fun left stack => .push (.predicate left op) stack

def reduceUnary (r : Reduction) (make : Node → Node) (stack : List Operand) : Effect :=
  popNode r stack fun inner stack => .push (make inner) stack

def reduceFunction (stack : List Operand) : Effect :=
  pop .function stack fun arguments stack =>
    pop .function stack fun head stack =>
      match head, arguments with
      | .node (.identifier name), .arguments params => .push (.function name params) stack
      | _, _ => .refuse (.notCallable head.kind arguments.kind) stack

/-! Reductions of a group, given the operands above its marker from the bottom up. -/

def elementErrors (group : List Operand) : List SemanticError :=
  (group.filter fun o => o.value?.isNone).map fun o => .arrayElement o.kind

def closeArray (group rest : List Operand) : Effect :=
  ⟨rest, elementErrors group, some (.node (.value (.array (group.filterMap Operand.value?))))⟩

def argumentErrors (group : List Operand) : List SemanticError :=
  (group.filter fun o => o.node?.isNone).map fun o => .unexpected .arguments .expression o.kind

def closeArguments (group rest : List Operand) : Effect :=
  ⟨rest, argumentErrors group, some (.arguments (group.filterMap Operand.node?))⟩

/-- The names of a chain, or the first operand that is not a name. -/
def chainNames : List Operand → Except Operand (List String)
  | [] => .ok []
  | .node (.identifier name) :: os => (chainNames os).map (name :: ·)
  | o :: _ => .error o

/-- A name without accessors stays an identifier. -/
def chainNode : List Accessor → List String → Option Node
  | [], [head] => some (.identifier head)
  | accessors, head :: names =>
    if names.length = accessors.length then some (.reference ⟨head, accessors.zip names⟩) else none
  | _, [] => none

def closeReference (accessors : List Accessor) (group rest : List Operand) : Effect :=
  match chainNames group with
  | .error o => .refuse (.unexpected .reference .identifier o.kind) rest
  | .ok names =>
    match chainNode accessors names with
    | some n => .push n rest
    | none => .refuse .mismatchedChain rest

/-! The machine. -/

def apply (m : Assembly) (marks : List Nat) (e : Effect) : Assembly :=
  ⟨e.pushed.toList ++ e.rest, marks, m.errors ++ e.errors⟩

/-- Takes the innermost marker and splits the stack there. -/
def onGroup (m : Assembly) (r : Reduction) (close : List Operand → List Operand → Effect) :
    List Nat × Effect :=
  match m.marks with
  | [] => ([], .refuse (.noMarker r) m.stack)
  | mark :: marks =>
    if mark ≤ m.stack.length then
      let above := m.stack.length - mark
      (marks, close (m.stack.take above).reverse (m.stack.drop above))
    else (marks, .refuse (.noMarker r) m.stack)

/-- The markers after an action, and its effect on the operands. -/
def effect (m : Assembly) : Action → List Nat × Effect
  | .name text => (m.marks, .push (.identifier text) m.stack)
  | .operation raw => (m.marks, .push (.operation (.ofSpelling raw)) m.stack)
  | .integer text => (m.marks, addInteger text m.stack)
  | .decimal text => (m.marks, addDecimal text m.stack)
  | .boolean text => (m.marks, addBoolean text m.stack)
  | .string text => (m.marks, .push (.value (.string text)) m.stack)
  | .null => (m.marks, .push (.value .null) m.stack)
  | .mark => (m.stack.length :: m.marks, ⟨m.stack, [], none⟩)
  | .array => m.onGroup .array closeArray
  | .arguments => m.onGroup .arguments closeArguments
  | .reference accessors => m.onGroup .reference (closeReference accessors)
  | .function => (m.marks, reduceFunction m.stack)
  | .compare => (m.marks, reduceBinary .compare .compare m.stack)
  | .logic => (m.marks, reduceBinary .logic .logic m.stack)
  | .between => (m.marks, reduceBetween m.stack)
  | .predicate => (m.marks, reducePredicate m.stack)
  | .not => (m.marks, reduceUnary .not .not m.stack)
  | .parentheses => (m.marks, reduceUnary .parentheses .parentheses m.stack)

def perform (m : Assembly) (a : Action) : Assembly := m.apply (m.effect a).1 (m.effect a).2

/-- What the journal says about an action. -/
def eventsOf (m : Assembly) (a : Action) : List Event := (m.effect a).2.events

def run (m : Assembly) (actions : List Action) : Assembly := actions.foldl perform m

/-- The lengths to which the lists are cut on the way back. -/
structure Checkpoint where
  stack : Nat
  marks : Nat
  errors : Nat
deriving DecidableEq, Repr

def checkpoint (m : Assembly) : Checkpoint := ⟨m.stack.length, m.marks.length, m.errors.length⟩

def rewind (m : Assembly) (p : Checkpoint) : Assembly :=
  ⟨m.stack.drop (m.stack.length - p.stack), m.marks.drop (m.marks.length - p.marks),
    m.errors.take p.errors⟩

theorem rewind_checkpoint (m : Assembly) : m.rewind m.checkpoint = m := by
  simp [rewind, checkpoint]

/-- The journal mentions a rewind only if it drops operands. -/
def rewindEvents (m : Assembly) (p : Checkpoint) : List Event :=
  if p.stack < m.stack.length then [.dropped (m.stack.length - p.stack)] else []

/-- The finished tree: the only operand left, provided that no error was recorded. Asking takes
one operand off the stack unless there are errors. -/
def finish (m : Assembly) : Except ParseError Node × Assembly :=
  match m.errors, m.stack with
  | e :: _, _ => (.error (.semantic e), m)
  | [], [.node n] => (.ok n, { m with stack := [] })
  | [], stack => (.error (.unfinished stack.length), { m with stack := stack.tail })

def finishEvents (m : Assembly) : List Event :=
  match m.finish.1 with
  | .error (.unfinished residual) => [.leftOver residual]
  | _ => []

end Assembly

end FilterQuery
