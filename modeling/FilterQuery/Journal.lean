import FilterQuery.Error

/-!
The journal of a parse: what happened, in order, each entry with a level. A reader asks for the
entries up to some level.
-/
namespace FilterQuery

open Text

inductive Level where
  | error
  | debug
  | trace
deriving DecidableEq, Repr

namespace Level

def name : Level → String
  | error => "ERROR"
  | debug => "DEBUG"
  | trace => "TRACE"

/-- Higher levels say more. -/
def rank : Level → Nat
  | error => 0
  | debug => 1
  | trace => 2

end Level

inductive Event where
  | started (text : String)
  | refused (error : ParseError)
  | finished (kind : Kind)
  | recorded (error : SemanticError)
  | dropped (count : Nat)
  | reducedArray (size : Nat)
  | reducedArguments (size : Nat)
  | reducedFunction (name : String) (arity : Nat)
  | reducedCompare (op : Operator)
  | reducedLogic (op : Operator)
  | reducedBetween (op : Operator)
  | reducedPredicate (op : Operator)
  | leftOver (count : Nat)
deriving DecidableEq, Repr

namespace Event

def level : Event → Level
  | leftOver _ => .error
  | started _ | refused _ | finished _ | recorded _ => .debug
  | _ => .trace

def message : Event → String
  | started text => s!"parsing {Quoted.quote text}"
  | refused error => error.message
  | finished kind => s!"parsed {kind.name} node"
  | recorded error => s!"semantic error: {error.message}"
  | dropped count => s!"rewind: dropping {count} operand(s)"
  | reducedArray size => s!"reduce array of {size}"
  | reducedArguments size => s!"reduce argument list of {size}"
  | reducedFunction name arity => s!"reduce function {name}({arity})"
  | reducedCompare op => s!"reduce compare {op.code}"
  | reducedLogic op => s!"reduce logic {op.code}"
  | reducedBetween op => s!"reduce {op.code}"
  | reducedPredicate op => s!"reduce predicate {op.code}"
  | leftOver count => s!"tree builder finished with {count} operands"

def line (e : Event) : String := s!"{e.level.name} {e.message}"

end Event

abbrev Journal := List Event

/-- The lines of the entries up to a level. -/
def Journal.lines (journal : Journal) (level : Level) : List String :=
  (journal.filter fun e => e.level.rank ≤ level.rank).map Event.line

end FilterQuery
