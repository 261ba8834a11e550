import FilterQuery.Node
import FilterQuery.Text.Position
import FilterQuery.Text.Quoted

/-!
Everything that can go wrong with a query. A semantic error is recorded while the tree is put
together and parsing goes on; a parse error is the verdict on the whole query. Each error is its
cause, and the wording is fixed here.
-/
namespace FilterQuery

open Number Text

/-- The steps that take operands from the stack. -/
inductive Reduction where
  | array
  | arguments
  | reference
  | function
  | compare
  | logic
  | between
  | predicate
  | not
  | parentheses
deriving DecidableEq, Repr

def Reduction.name : Reduction → String
  | array => "array"
  | arguments => "arguments"
  | reference => "reference"
  | function => "function"
  | compare => "compare"
  | logic => "logic"
  | between => "between"
  | predicate => "predicate"
  | not => "not"
  | parentheses => "parentheses"

/-- What a reduction wants where it found something else. -/
inductive Wanted where
  | expression
  | operation
  | identifier
deriving DecidableEq, Repr

def Wanted.name : Wanted → String
  | expression => "expression"
  | operation => "operation"
  | identifier => "identifier"

inductive SemanticError where
  | integer (text : String) (fault : IntegerFault)
  | decimal (text : String) (fault : DecimalFault)
  | boolean (text : String)
  | notCallable (head arguments : Kind)
  | arrayElement (found : Kind)
  | noMarker (reduction : Reduction)
  | underflow (reduction : Reduction)
  | unexpected (reduction : Reduction) (wanted : Wanted) (found : Kind)
  | mismatchedChain
deriving DecidableEq, Repr

namespace SemanticError

def message : SemanticError → String
  | integer text fault => s!"invalid integer literal {Quoted.quote text}: {fault.reason}"
  | decimal text fault => s!"invalid decimal literal {Quoted.quote text}: {fault.reason}"
  | boolean text => s!"invalid boolean literal {Quoted.quote text}"
  | notCallable head arguments =>
    s!"invalid function expression: {head.name} applied to {arguments.name}"
  | arrayElement found => s!"array elements must be literal values, found {found.name}"
  | noMarker reduction => s!"{reduction.name}: no open marker"
  | underflow reduction => s!"{reduction.name}: operand stack is empty"
  | unexpected reduction wanted found =>
    s!"{reduction.name}: expected {wanted.name}, found {found.name}"
  | mismatchedChain =>
    s!"{Reduction.reference.name}: expected one more name than accessors, found mismatched chain"

end SemanticError

inductive ParseError where
  | syntaxError (offset : Nat) (position : Position) (rule near : String)
  | tooDeep (limit offset : Nat) (position : Position)
  | semantic (error : SemanticError)
  | unfinished (residual : Nat)
deriving DecidableEq, Repr

/-- Whose fault it is: the text's form, its content, or the grammar's own. -/
inductive Category where
  | form
  | content
  | fault
deriving DecidableEq, Repr

namespace ParseError

def category : ParseError → Category
  | syntaxError .. | tooDeep .. => .form
  | semantic _ => .content
  | unfinished _ => .fault

def position? : ParseError → Option Position
  | syntaxError _ position _ _ | tooDeep _ _ position => some position
  | _ => none

def message : ParseError → String
  | syntaxError _ position rule near =>
    s!"parse error near {Quoted.quote near} at {position.describe} (in {rule})"
  | tooDeep limit _ position => s!"nesting deeper than {limit} levels at {position.describe}"
  | semantic error => error.message
  | unfinished residual =>
    s!"internal error: tree builder finished with {residual} nodes on the stack"

end ParseError

end FilterQuery
