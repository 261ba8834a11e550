import FilterQuery.Scanner.Terminal

/-!
Operator slots. A slot lists the spellings that may stand at one place of the grammar, in the
order in which they are tried. A longer symbol comes before any shorter one that it begins with.
-/
namespace FilterQuery.Grammar

open Scanner

inductive Spelling where
  | symbol (text : String)
  | phrase (words : List String)
deriving DecidableEq, Repr

/-- Finds the spelling and gives its text, a phrase with single blanks between its words. -/
def Spelling.terminal : Spelling → Terminal (List Char)
  | symbol text => (Terminal.literal text).map fun _ => text.toList
  | phrase words => Terminal.phrase words

abbrev Slot := List Spelling

namespace Slot

def compare : Slot :=
  [.symbol ">=", .symbol "<=", .symbol "==", .symbol "<>", .symbol "!=", .symbol "<",
    .symbol "=", .symbol ">", .phrase ["gte"], .phrase ["gt"], .phrase ["lte"], .phrase ["lt"],
    .phrase ["neq"], .phrase ["eq"], .phrase ["like"], .phrase ["not", "like"]]

def logic : Slot := [.phrase ["and"], .phrase ["or"], .symbol "&&", .symbol "||"]

def oneOf : Slot := [.phrase ["in"], .phrase ["not", "in"]]

def between : Slot := [.phrase ["not", "between"], .phrase ["between"]]

/-- The suffixes that ask for null, true or false. -/
def test : Slot :=
  [.phrase ["isnull"], .phrase ["notnull"], .phrase ["is", "not", "null"],
    .phrase ["is", "not", "true"], .phrase ["is", "not", "false"], .phrase ["is", "null"],
    .phrase ["is", "true"], .phrase ["is", "false"], .phrase ["not", "null"]]

end Slot

end FilterQuery.Grammar
