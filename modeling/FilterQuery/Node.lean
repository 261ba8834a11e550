import FilterQuery.Operator
import FilterQuery.Reference
import FilterQuery.Value

/-!
The tree of a query. A node is a leaf (value, operator, identifier, reference) or an expression
over smaller nodes. Which trees a query can produce is a question for the grammar: the type
itself lets any node stand anywhere.
-/
namespace FilterQuery

inductive Node where
  | value (v : Value)
  | operation (op : Operator)
  | identifier (name : String)
  | reference (r : Reference)
  | compare (left : Node) (op : Operator) (right : Node)
  | logic (left : Node) (op : Operator) (right : Node)
  | predicate (left : Node) (op : Operator)
  | not (inner : Node)
  | parentheses (inner : Node)
  | between (left : Node) (op : Operator) (low high : Node)
  | function (name : String) (params : List Node)
deriving Repr, Inhabited

/-- What a node is, or that it is an argument list still waiting for its function. -/
inductive Kind where
  | value
  | operation
  | identifier
  | reference
  | compare
  | logic
  | predicate
  | not
  | parentheses
  | between
  | function
  | argumentList
deriving DecidableEq, Repr, Inhabited

def Kind.name : Kind → String
  | value => "value"
  | operation => "operation"
  | identifier => "identifier"
  | reference => "reference"
  | compare => "compare"
  | logic => "logic"
  | predicate => "predicate"
  | not => "not"
  | parentheses => "parentheses"
  | between => "between"
  | function => "function"
  | argumentList => "argument list"

namespace Node

def kind : Node → Kind
  | value _ => .value
  | operation _ => .operation
  | identifier _ => .identifier
  | reference _ => .reference
  | compare .. => .compare
  | logic .. => .logic
  | predicate .. => .predicate
  | not _ => .not
  | parentheses _ => .parentheses
  | between .. => .between
  | function .. => .function

def value? : Node → Option Value
  | value v => some v
  | _ => none

def operator? : Node → Option Operator
  | operation op | compare _ op _ | logic _ op _ | predicate _ op | between _ op _ _ => some op
  | _ => none

def reference? : Node → Option Reference
  | reference r => some r
  | _ => none

def bounds? : Node → Option (Node × Node)
  | between _ _ low high => some (low, high)
  | _ => none

def isValue (n : Node) : Bool := n.value?.isSome

def isExpression : Node → Bool
  | value _ | operation _ | identifier _ | reference _ => false
  | _ => true

mutual

/-- The same tree up to the scale of decimals. -/
def agrees : Node → Node → Bool
  | value a, value b => a.agrees b
  | operation a, operation b => a == b
  | identifier a, identifier b => a == b
  | reference a, reference b => a == b
  | compare l op r, compare l' op' r' => l.agrees l' && op == op' && r.agrees r'
  | logic l op r, logic l' op' r' => l.agrees l' && op == op' && r.agrees r'
  | predicate l op, predicate l' op' => l.agrees l' && op == op'
  | not a, not b => a.agrees b
  | parentheses a, parentheses b => a.agrees b
  | between l op lo hi, between l' op' lo' hi' =>
    l.agrees l' && op == op' && lo.agrees lo' && hi.agrees hi'
  | function f ps, function f' ps' => f == f' && agreesAll ps ps'
  | _, _ => false

def agreesAll : List Node → List Node → Bool
  | [], [] => true
  | a :: as, b :: bs => a.agrees b && agreesAll as bs
  | _, _ => false

end

end Node

end FilterQuery
