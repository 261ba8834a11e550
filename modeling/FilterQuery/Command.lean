import FilterQuery.Join
import FilterQuery.Node.Dump
import FilterQuery.Node.Render
import FilterQuery.Parse

/-!
The commands: check a query, write it in canonical form, join several. Arguments are read into a
command first, and a command is then carried out on the text of the input, which is the query if
none was given as an argument.
-/
namespace FilterQuery

inductive Verdict where
  | valid
  | tree (json : Json)
deriving Repr

def check (query : String) (wantsTree : Bool) : Except ParseError Verdict :=
  (parse query).map fun root => if wantsTree then .tree root.toJson else .valid

def format (query : String) (style : Style) : Except ParseError String :=
  (parse query).map (·.render style)

def failureMessage (e : ParseError) : String := s!"Parse error: {e.message}"

inductive Command where
  | check (query : Option String) (tree pretty : Bool)
  | format (query : Option String) (symbols : Bool)
  | join (queries : List String)
deriving DecidableEq, Repr

namespace Command

inductive Flag where
  | tree
  | pretty
  | symbols
deriving DecidableEq, Repr

def flag? : String → Option Flag
  | "--ast" => some .tree
  | "-p" | "--pretty" => some .pretty
  | "-s" | "--symbols" => some .symbols
  | _ => none

/-- A lone dash is an ordinary argument. -/
def looksLikeFlag (arg : String) : Bool :=
  match arg.toList with
  | '-' :: _ :: _ => true
  | _ => false

/-- Flags and other arguments apart, in their order. After a double dash nothing is a flag. -/
def splitFlags : List String → List String × List String
  | [] => ([], [])
  | arg :: args =>
    if arg = "--" then ([], args)
    else
      let (flags, others) := splitFlags args
      if looksLikeFlag arg then (arg :: flags, others) else (flags, arg :: others)

/-- The flags if all of them are allowed here and none comes twice. -/
def flags? (allowed : List Flag) (texts : List String) : Option (List Flag) := do
  let flags ← texts.mapM flag?
  if flags.all allowed.contains ∧ flags.Nodup then some flags else none

/-- At most one query. -/
def query? : List String → Option (Option String)
  | [] => some none
  | [query] => some (some query)
  | _ => none

/-- The command that some arguments ask for, or none if they make no sense. -/
def ofArguments? : List String → Option Command
  | [] => none
  | name :: args =>
    let (texts, others) := splitFlags args
    if name = "check" then do
      let flags ← flags? [.tree, .pretty] texts
      let query ← query? others
      return check query (flags.contains .tree) (flags.contains .pretty)
    else if name = "format" then do
      let flags ← flags? [.symbols] texts
      let query ← query? others
      return format query (flags.contains .symbols)
    else if name = "join" then do
      let _ ← flags? [] texts
      return join others
    else none

def readsInput : Command → Bool
  | check query .. | format query _ => query.isNone
  | join _ => false

structure Report where
  exitCode : Nat
  output : String
  errors : String
deriving DecidableEq, Repr

def Report.success (text : String) : Report := ⟨0, text ++ "\n", ""⟩

def Report.failure (e : ParseError) : Report := ⟨1, "", failureMessage e ++ "\n"⟩

def Report.of {α : Type} (result : Except ParseError α) (text : α → String) : Report :=
  match result with
  | .ok a => .success (text a)
  | .error e => .failure e

def showVerdict (pretty : Bool) : Verdict → String
  | .valid => "Syntax is valid"
  | .tree json => if pretty then json.pretty else json.compact

def run (input : String) : Command → Report
  | check query tree pretty =>
    .of (FilterQuery.check (query.getD input) tree) (showVerdict pretty)
  | format query symbols =>
    .of (FilterQuery.format (query.getD input) (if symbols then .symbol else .word)) id
  | join queries => .success (FilterQuery.join queries)

/-- The exit code for arguments that make no sense. -/
def usageExitCode : Nat := 2

def usage : String :=
  "usage: check [QUERY] [--ast] [-p|--pretty]\n       format [QUERY] [-s|--symbols]\n" ++
    "       join [QUERY]...\n"

end Command

end FilterQuery
