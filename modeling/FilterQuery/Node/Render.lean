import FilterQuery.Node

/-!
Canonical text. Operators of comparisons and logic are written as words or as symbols; predicates
and ranges have words only. A string is put between quotes that do not occur in it, since there
are no escapes.
-/
namespace FilterQuery

open Number

inductive Style where
  | word
  | symbol
deriving DecidableEq, Repr

def Operator.spell (style : Style) (op : Operator) : List Char :=
  match style with
  | .word => op.code.toList
  | .symbol => op.symbol.toList

def Reference.spell (r : Reference) : List Char :=
  r.head.toList ++ r.steps.flatMap fun (a, name) => a.text.toList ++ name.toList

namespace Value

def quoteFor (s : List Char) : Char := if s.contains '\'' then '"' else '\''

def spellString (s : List Char) : List Char := quoteFor s :: s ++ [quoteFor s]

mutual

def spell : Value → List Char
  | int n => Integer.spell n
  | decimal d => d.spell
  | bool b => if b then "true".toList else "false".toList
  | string s => spellString s.toList
  | null => "null".toList
  | array es => '[' :: spellList es ++ [']']

def spellList : List Value → List Char
  | [] => []
  | v :: vs => v.spell ++ spellRest vs

/-- The elements after the first, each behind its comma. -/
def spellRest : List Value → List Char
  | [] => []
  | v :: vs => ", ".toList ++ v.spell ++ spellRest vs

end

end Value

namespace Node

mutual

def spell (style : Style) : Node → List Char
  | value v => v.spell
  | operation op => op.spell style
  | identifier name => name.toList
  | reference r => r.spell
  | compare l op r | logic l op r => l.spell style ++ ' ' :: op.spell style ++ ' ' :: r.spell style
  | predicate l op => l.spell style ++ ' ' :: op.code.toList
  | not inner => "not ".toList ++ inner.spell style
  | parentheses inner => '(' :: inner.spell style ++ [')']
  | between l op low high =>
    l.spell style ++ ' ' :: op.code.toList ++ ' ' :: low.spell style ++ " and ".toList ++
      high.spell style
  | function name params => name.toList ++ '(' :: spellList style params ++ [')']

def spellList (style : Style) : List Node → List Char
  | [] => []
  | n :: ns => n.spell style ++ spellRest style ns

/-- The parameters after the first, each behind its comma. -/
def spellRest (style : Style) : List Node → List Char
  | [] => []
  | n :: ns => ", ".toList ++ n.spell style ++ spellRest style ns

end

def render (style : Style) (n : Node) : String := String.ofList (n.spell style)

end Node

end FilterQuery
