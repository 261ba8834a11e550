import FilterQuery.Grammar.Query

/-!
Parsing a query. The nesting limit is judged first, then whether the grammar matched, and then
the tree; the semantic errors and the journal of the run can be asked for as well.
-/
namespace FilterQuery

open Text Grammar Scanner

/-- The deepest accepted nesting of parentheses and argument lists. -/
def nestingLimit : Nat := 256

structure Outcome where
  result : Except ParseError Node
  semanticErrors : List SemanticError
  journal : Journal
deriving Repr

/-- The error of a run that gave no tree, if it is the form of the text that is at fault. -/
def formError? (limit : Nat) (text : List Char) (matched : Bool) (s : State) :
    Option ParseError :=
  match s.tooDeep with
  | some offset => some (.tooDeep limit offset (.locate text offset))
  | none =>
    if matched then none
    else
      let (offset, rule) := s.cursor.trail.report s.cursor.offset
      some (.syntaxError offset (.locate text offset) rule (excerptAt text offset))

def parseWithin (limit : Nat) (text : String) : Outcome :=
  let (matched, s) := (query limit).run (State.start text.toList)
  let journal := .started text :: s.journal.reverse
  match formError? limit text.toList matched s with
  | some e => ⟨.error e, s.assembly.errors, journal ++ [.refused e]⟩
  | none =>
    let (result, assembly) := s.assembly.finish
    let ending := match result with
      | .ok root => [.finished root.kind]
      | .error _ => s.assembly.finishEvents
    ⟨result, assembly.errors, journal ++ ending⟩

def parseOutcome (text : String) : Outcome := parseWithin nestingLimit text

def parse (text : String) : Except ParseError Node := (parseOutcome text).result

end FilterQuery
