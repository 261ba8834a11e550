import FilterQuery.Text.Lowercase
import FilterQuery.Text.Whitespace

/-!
Operators and their spellings. Letter case and the width of inner spaces do not matter, several
spellings stand for one operator, and a text that spells none of them is an operator of its own,
known only by its folded text.
-/
namespace FilterQuery

open Text

inductive Operator where
  | gt
  | gte
  | lt
  | lte
  | eq
  | neq
  | like
  | notLike
  | oneOf
  | notOneOf
  | between
  | notBetween
  | and
  | or
  | isNull
  | isNotNull
  | isTrue
  | isNotTrue
  | isFalse
  | isNotFalse
  | other (code : String)
deriving DecidableEq, Repr, Inhabited

namespace Operator

def code : Operator → String
  | gt => "gt"
  | gte => "gte"
  | lt => "lt"
  | lte => "lte"
  | eq => "eq"
  | neq => "neq"
  | like => "like"
  | notLike => "not like"
  | oneOf => "in"
  | notOneOf => "not in"
  | between => "between"
  | notBetween => "not between"
  | and => "and"
  | or => "or"
  | isNull => "is null"
  | isNotNull => "is not null"
  | isTrue => "is true"
  | isNotTrue => "is not true"
  | isFalse => "is false"
  | isNotFalse => "is not false"
  | other code => code

/-- The operators that have a code of their own. -/
def known : List Operator :=
  [gt, gte, lt, lte, eq, neq, like, notLike, oneOf, notOneOf, between, notBetween, and, or,
    isNull, isNotNull, isTrue, isNotTrue, isFalse, isNotFalse]

/-- Spellings besides the codes. -/
def aliases : List (String × Operator) :=
  [(">=", gte), (">", gt), ("==", eq), ("=", eq), (":", eq), ("!=", neq), ("<>", neq),
    ("<", lt), ("<=", lte), ("&&", and), (",", and), ("||", or), ("isnull", isNull),
    ("notnull", isNotNull), ("not null", isNotNull)]

def spellings : List (String × Operator) := aliases ++ known.map fun op => (op.code, op)

/-- The form in which spellings are compared: trimmed, in small letters, single blanks inside. -/
def fold (raw : List Char) : List Char := squeeze (lowercase (trim raw))

def ofFolded (text : String) : Operator := (spellings.lookup text).getD (other text)

theorem ofFolded_code {op : Operator} (h : op ∈ known) : ofFolded op.code = op := by
  revert op
  decide +kernel

def ofSpelling (raw : String) : Operator := ofFolded (String.ofList (fold raw.toList))

/-- The code that a spelling stands for. -/
def normalize (raw : String) : String := (ofSpelling raw).code

/-- The symbol where there is one, the code elsewhere. -/
def symbol : Operator → String
  | gte => ">="
  | gt => ">"
  | eq => "=="
  | neq => "!="
  | lt => "<"
  | lte => "<="
  | and => "&&"
  | or => "||"
  | op => op.code

def isComparison : Operator → Bool
  | gt | gte | lt | lte | eq | neq | like | notLike | oneOf | notOneOf => true
  | _ => false

def isLogic : Operator → Bool
  | and | or => true
  | _ => false

def isRange : Operator → Bool
  | between | notBetween => true
  | _ => false

def isPredicate : Operator → Bool
  | isNull | isNotNull | isTrue | isNotTrue | isFalse | isNotFalse => true
  | _ => false

/-- The code begins with a negating word, known operator or not. -/
def isNegated (op : Operator) : Bool :=
  "not ".toList.isPrefixOf op.code.toList || "is not ".toList.isPrefixOf op.code.toList

end Operator

end FilterQuery
