import FilterQuery.Assembly

/-!
Drafts: the tree of a query before its number literals are converted. A draft keeps the text of
every number, so that it depends on the form of the query alone. Building the tree converts each
literal; a literal that cannot be converted is a fault, and a placeholder stands in for it.
-/
namespace FilterQuery

open Number

inductive Literal where
  | null
  | bool (b : Bool)
  | string (content : String)
  | integer (text : String)
  | decimal (text : String)
deriving DecidableEq, Repr

namespace Literal

/-- The value that is written, or what is wrong with it. -/
def convert : Literal → Except SemanticError Value
  | null => .ok .null
  | bool b => .ok (.bool b)
  | string content => .ok (.string content)
  | integer text =>
    match Integer.read text.toList with
    | .ok n => .ok (.int n)
    | .error fault => .error (.integer text fault)
  | decimal text =>
    match Decimal.read text.toList with
    | .ok d => .ok (.decimal d)
    | .error fault => .error (.decimal text fault)

/-- What stands in for a literal that cannot be converted. -/
def placeholder : Literal → Value
  | decimal _ => .decimal .zero
  | _ => .int 0

def value (l : Literal) : Value :=
  match l.convert with
  | .ok v => v
  | .error _ => l.placeholder

def fault? (l : Literal) : Option SemanticError :=
  match l.convert with
  | .ok _ => none
  | .error e => some e

end Literal

inductive Draft where
  | literal (l : Literal)
  | array (elements : List Literal)
  | identifier (name : String)
  | reference (r : Reference)
  | compare (left : Draft) (op : Operator) (right : Draft)
  | logic (left : Draft) (op : Operator) (right : Draft)
  | predicate (left : Draft) (op : Operator)
  | not (inner : Draft)
  | parentheses (inner : Draft)
  | between (left : Draft) (op : Operator) (low high : Draft)
  | function (name : String) (params : List Draft)
deriving Repr

namespace Draft

mutual

/-- The tree of a draft. -/
def build : Draft → Node
  | literal l => .value l.value
  | array es => .value (.array (es.map Literal.value))
  | identifier name => .identifier name
  | reference r => .reference r
  | compare l op r => .compare l.build op r.build
  | logic l op r => .logic l.build op r.build
  | predicate l op => .predicate l.build op
  | not inner => .not inner.build
  | parentheses inner => .parentheses inner.build
  | between l op low high => .between l.build op low.build high.build
  | function name params => .function name (buildAll params)

def buildAll : List Draft → List Node
  | [] => []
  | d :: ds => d.build :: buildAll ds

end

mutual

/-- The literals of a draft from left to right. -/
def literals : Draft → List Literal
  | literal l => [l]
  | array es => es
  | identifier _ => []
  | reference _ => []
  | compare l _ r => l.literals ++ r.literals
  | logic l _ r => l.literals ++ r.literals
  | predicate l _ => l.literals
  | not inner => inner.literals
  | parentheses inner => inner.literals
  | between l _ low high => l.literals ++ (low.literals ++ high.literals)
  | function _ params => literalsOfAll params

def literalsOfAll : List Draft → List Literal
  | [] => []
  | d :: ds => d.literals ++ literalsOfAll ds

end

theorem buildAll_eq_map (ds : List Draft) : buildAll ds = ds.map build := by
  induction ds with
  | nil => rfl
  | cons d ds ih => rw [buildAll, ih, List.map_cons]

theorem literalsOfAll_eq_flatMap (ds : List Draft) : literalsOfAll ds = ds.flatMap literals := by
  induction ds with
  | nil => rfl
  | cons d ds ih => rw [literalsOfAll, ih, List.flatMap_cons]

/-- The faults of the literals, in the order in which the literals stand. -/
def faults (d : Draft) : List SemanticError := d.literals.filterMap Literal.fault?

end Draft

end FilterQuery
