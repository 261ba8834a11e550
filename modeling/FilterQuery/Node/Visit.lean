import FilterQuery.Node

/-!
Walking a tree. A visitor is called at every value, operator and node, depth first and each call
before those below it: left operand, operator, right operand; the bounds of a range after its
operator; parameters and array elements in order. The visitor carries a state of its own and
answers each call by going on, by skipping what lies below, or by stopping the walk.
-/
namespace FilterQuery

inductive Call where
  | value (v : Value)
  | operation (op : Operator)
  | identifier (name : String)
  | reference (r : Reference)
  | compare (left : Node) (op : Operator) (right : Node)
  | logic (left : Node) (op : Operator) (right : Node)
  | predicate (left : Node) (op : Operator)
  | not (inner : Node)
  | parentheses (inner : Node)
  | between (left : Node) (op : Operator) (low high : Node)
  | function (name : String) (params : List Node)
deriving Repr

inductive Reply (ε : Type) where
  | descend
  | skip
  | stop (error : ε)
deriving DecidableEq, Repr

abbrev Visitor (σ ε : Type) := Call → σ → Reply ε × σ

/-- A part of a walk; an error means that it was stopped there. -/
abbrev Walk (σ ε : Type) := σ → Option ε × σ

namespace Walk

variable {σ ε : Type}

def done : Walk σ ε := fun s => (none, s)

/-- The second part follows unless the first was stopped. -/
def andThen (first second : Walk σ ε) : Walk σ ε := fun s =>
  match first s with
  | (none, s') => second s'
  | (some e, s') => (some e, s')

/-- Calls the visitor, then walks what lies below if it wants that. -/
def call (v : Visitor σ ε) (c : Call) (below : Walk σ ε) : Walk σ ε := fun s =>
  match v c s with
  | (.descend, s') => below s'
  | (.skip, s') => (none, s')
  | (.stop e, s') => (some e, s')

def callOperator (v : Visitor σ ε) (op : Operator) : Walk σ ε := call v (.operation op) done

mutual

def value (v : Visitor σ ε) : Value → Walk σ ε
  | .array es => call v (.value (.array es)) (values v es)
  | .int n => call v (.value (.int n)) done
  | .decimal d => call v (.value (.decimal d)) done
  | .bool b => call v (.value (.bool b)) done
  | .string s => call v (.value (.string s)) done
  | .null => call v (.value .null) done

def values (v : Visitor σ ε) : List Value → Walk σ ε
  | [] => done
  | x :: xs => (value v x).andThen (values v xs)

end

mutual

def node (v : Visitor σ ε) : Node → Walk σ ε
  | .value x => value v x
  | .operation op => callOperator v op
  | .identifier name => call v (.identifier name) done
  | .reference r => call v (.reference r) done
  | .compare l op r =>
    call v (.compare l op r) ((node v l).andThen ((callOperator v op).andThen (node v r)))
  | .logic l op r =>
    call v (.logic l op r) ((node v l).andThen ((callOperator v op).andThen (node v r)))
  | .predicate l op => call v (.predicate l op) ((node v l).andThen (callOperator v op))
  | .not inner => call v (.not inner) (node v inner)
  | .parentheses inner => call v (.parentheses inner) (node v inner)
  | .between l op low high =>
    call v (.between l op low high)
      ((node v l).andThen ((callOperator v op).andThen ((node v low).andThen (node v high))))
  | .function name params => call v (.function name params) (nodes v params)

def nodes (v : Visitor σ ε) : List Node → Walk σ ε
  | [] => done
  | n :: ns => (node v n).andThen (nodes v ns)

end

end Walk

def Node.visit {σ ε : Type} (n : Node) (v : Visitor σ ε) : Walk σ ε := Walk.node v n

namespace Node

mutual

/-- The node and all nodes below it, each before those below it. The operator of an expression
and the elements of an array are parts of their node and not nodes themselves. -/
def subnodes : Node → List Node
  | compare l op r => compare l op r :: (l.subnodes ++ r.subnodes)
  | logic l op r => logic l op r :: (l.subnodes ++ r.subnodes)
  | predicate l op => predicate l op :: l.subnodes
  | not inner => not inner :: inner.subnodes
  | parentheses inner => parentheses inner :: inner.subnodes
  | between l op low high =>
    between l op low high :: (l.subnodes ++ low.subnodes ++ high.subnodes)
  | function name params => function name params :: subnodesAll params
  | leaf => [leaf]

def subnodesAll : List Node → List Node
  | [] => []
  | n :: ns => n.subnodes ++ subnodesAll ns

end

end Node

end FilterQuery
