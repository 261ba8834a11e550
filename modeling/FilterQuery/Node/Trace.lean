import FilterQuery.Node.Visit

/-!
A visitor that writes down the calls it listens to, one line each. It can be told to skip what
lies below some calls, and to stop at a given number of lines: then the line it would have
written is the error.
-/
namespace FilterQuery

namespace Call

def hook : Call → String
  | value _ => "value"
  | operation _ => "operation"
  | identifier _ => "identifier"
  | reference _ => "reference"
  | compare .. => "compare"
  | logic .. => "logic"
  | predicate .. => "predicate"
  | not _ => "not"
  | parentheses _ => "parentheses"
  | between .. => "between"
  | function .. => "function"

/-- What sets the call apart from others of its hook. -/
def detail : Call → String
  | value v => v.kind
  | operation op | compare _ op _ | logic _ op _ | predicate _ op | between _ op _ _ => op.code
  | identifier name | function name _ => name
  | reference r => "/".intercalate r.names
  | not inner | parentheses inner => inner.kind.name

def line (c : Call) : String := s!"{c.hook} {c.detail}"

def isName : Call → Bool
  | identifier _ | reference _ => true
  | _ => false

/-- Operators and scalars; an array counts through its elements. -/
def isOperand : Call → Bool
  | operation _ => true
  | value v => v.elements?.isNone
  | _ => false

end Call

structure Tracer where
  listens : Call → Bool
  skips : Call → Bool
  stopAt : Option Nat

namespace Tracer

/-- The state is the list of lines so far. -/
def visitor (t : Tracer) : Visitor (List String) String := fun c lines =>
  if !t.listens c then (.descend, lines)
  else if t.stopAt = some lines.length then (.stop c.line, lines)
  else (if t.skips c then .skip else .descend, lines ++ [c.line])

/-- The lines of a walk, and the line at which it was stopped. -/
def run (t : Tracer) (n : Node) : Option String × List String := n.visit t.visitor []

end Tracer

end FilterQuery
