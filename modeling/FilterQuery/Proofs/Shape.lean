import FilterQuery.Node
import FilterQuery.Scanner.Terminal

/-!
The shape of the trees that queries have. A node stands at one of seven levels, from the loosest
binding to the tightest, and its operands stand at the levels that the grammar allows there. Names,
strings and arrays are limited to what can be written.
-/
namespace FilterQuery

open Number Scanner

/-! ## Leaves -/

/-- A letter and the letters, digits and underscores after it, but not the word `not`. -/
structure IsName (name : String) : Prop where
  letters : ∃ c cs, name.toList = c :: cs ∧ c.isAlpha = true ∧
    ∀ d ∈ cs, Terminal.isIdentifierChar d = true
  not_not : name.toList.map Char.toLower ≠ ['n', 'o', 't']

/-- The words that are literals in these letter cases. -/
def literalWords : List String := ["null", "NULL", "true", "TRUE", "false", "FALSE"]

/-- A name that does not read as a literal, so that an operand may begin with it. -/
structure IsHead (name : String) : Prop extends IsName name where
  not_literal : name ∉ literalWords

/-- Dots come before arrows, and there is at least one step. -/
structure Reference.IsPath (r : Reference) : Prop where
  head : IsHead r.head
  steps : ∃ dots arrows : List String,
    r.steps = dots.map (Accessor.dot, ·) ++ arrows.map (Accessor.arrow, ·)
  names : ∀ step ∈ r.steps, IsName step.2
  nonempty : r.steps ≠ []

namespace Value

/-- A value without parts. There are no escapes, so a string misses at least one kind of quote. -/
def IsScalar : Value → Prop
  | array _ => False
  | string s => '\'' ∉ s.toList ∨ '"' ∉ s.toList
  | _ => True

/-- Arrays are flat. -/
def IsFlat : Value → Prop
  | array es => ∀ e ∈ es, e.IsScalar
  | v => v.IsScalar

mutual

def decimals : Value → List Decimal
  | decimal d => [d]
  | array es => decimalsOfAll es
  | _ => []

def decimalsOfAll : List Value → List Decimal
  | [] => []
  | v :: vs => v.decimals ++ decimalsOfAll vs

end

end Value

/-! ## Nodes -/

/-- How tightly a node binds, the loosest first. -/
inductive Binding where
  | logic
  | negation
  | comparison
  | membership
  | predicate
  | between
  | primary
deriving DecidableEq, Repr

namespace Operator

def comparisons : List Operator := [gt, gte, lt, lte, eq, neq, like, notLike]

def memberships : List Operator := [oneOf, notOneOf]

end Operator

/-- The node stands at the level, and so do the nodes in it at theirs. -/
inductive Shaped : Binding → Node → Prop where
  | ofNegation {t : Node} (ht : Shaped .negation t) : Shaped .logic t
  | logic {l r : Node} {op : Operator} (hl : Shaped .logic l) (hop : op.isLogic = true)
      (hr : Shaped .negation r) : Shaped .logic (.logic l op r)
  | ofComparison {t : Node} (ht : Shaped .comparison t) : Shaped .negation t
  | not {t : Node} (ht : Shaped .comparison t) : Shaped .negation (.not t)
  | ofMembership {t : Node} (ht : Shaped .membership t) : Shaped .comparison t
  | compare {l r : Node} {op : Operator} (hl : Shaped .comparison l)
      (hop : op ∈ Operator.comparisons) (hr : Shaped .membership r) :
      Shaped .comparison (.compare l op r)
  | ofPredicate {t : Node} (ht : Shaped .predicate t) : Shaped .membership t
  | membership {l : Node} {op : Operator} {es : List Value} (hl : Shaped .predicate l)
      (hop : op ∈ Operator.memberships) (hes : ∀ e ∈ es, e.IsScalar) :
      Shaped .membership (.compare l op (.value (.array es)))
  | ofBetween {t : Node} (ht : Shaped .between t) : Shaped .predicate t
  | predicate {l : Node} {op : Operator} (hl : Shaped .between l) (hop : op.isPredicate = true) :
      Shaped .predicate (.predicate l op)
  | ofPrimary {t : Node} (ht : Shaped .primary t) : Shaped .between t
  | between {l : Node} {op : Operator} {low high : Value} (hl : Shaped .primary l)
      (hop : op.isRange = true) (hlow : low.IsFlat) (hhigh : high.IsFlat) :
      Shaped .between (.between l op (.value low) (.value high))
  | parentheses {t : Node} (ht : Shaped .logic t) : Shaped .primary (.parentheses t)
  | value {v : Value} (hv : v.IsFlat) : Shaped .primary (.value v)
  | function {name : String} {params : List Node} (hname : IsHead name)
      (hparams : ∀ t ∈ params, Shaped .logic t) : Shaped .primary (.function name params)
  | identifier {name : String} (hname : IsHead name) : Shaped .primary (.identifier name)
  | reference {r : Reference} (hr : r.IsPath) : Shaped .primary (.reference r)

namespace Node

mutual

/-- How deep parentheses and argument lists are nested. -/
def nesting : Node → Nat
  | value _ | operation _ | identifier _ | reference _ => 0
  | compare l _ r | logic l _ r => max l.nesting r.nesting
  | predicate l _ => l.nesting
  | not inner => inner.nesting
  | parentheses inner => inner.nesting + 1
  | between l _ low high => max l.nesting (max low.nesting high.nesting)
  | function _ params => nestingOfAll params + 1

def nestingOfAll : List Node → Nat
  | [] => 0
  | n :: ns => max n.nesting (nestingOfAll ns)

end

mutual

/-- The decimals of a tree. -/
def decimals : Node → List Decimal
  | value v => v.decimals
  | operation _ | identifier _ | reference _ => []
  | compare l _ r | logic l _ r => l.decimals ++ r.decimals
  | predicate l _ => l.decimals
  | not inner | parentheses inner => inner.decimals
  | between l _ low high => l.decimals ++ (low.decimals ++ high.decimals)
  | function _ params => decimalsOfAll params

def decimalsOfAll : List Node → List Decimal
  | [] => []
  | n :: ns => n.decimals ++ decimalsOfAll ns

end

end Node

end FilterQuery
