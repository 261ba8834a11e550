import FilterQuery.Grammar.Slot
import FilterQuery.Grammar.State

/-!
Rules of an ordered-choice grammar, as data, and the machine that runs them. Alternatives are
tried in order and the first match is final. Only `attempt`, `named` and the repetitions undo a
failure; what the others had done before they failed stays done.
-/
namespace FilterQuery.Grammar

open Scanner

inductive Rule where
  /-- Matches and does nothing. -/
  | done
  /-- Fails and does nothing. -/
  | never
  | read (t : Terminal (Option Action))
  | act (a : Action)
  /-- Fails because the nesting limit is reached. -/
  | limit
  /-- One level of brackets deeper. -/
  | deeper (p : Rule)
  | andThen (p q : Rule)
  | orElse (p q : Rule)
  | attempt (p : Rule)
  | many (p : Rule)
  /-- Repeats the one rule, then the other, and acts on how often each matched. -/
  | tally (p q : Rule) (a : Nat → Nat → Action)
  | named (name : String) (p : Rule)

namespace Rule

def run : Rule → Step
  | done, s => (true, s)
  | never, s => (false, s)
  | read t, s => Step.read t s
  | act a, s => (true, s.perform a)
  | limit, s => (false, s.hitLimit)
  | deeper p, s => Step.deeper p.run s
  | andThen p q, s =>
    match p.run s with
    | (true, s') => q.run s'
    | (false, s') => (false, s')
  | orElse p q, s =>
    match p.run s with
    | (true, s') => (true, s')
    | (false, s') => q.run s'
  | attempt p, s => Step.undoing p.run s
  | many p, s => (true, (Step.count p.run s).2)
  | tally p q a, s =>
    let (m, s) := Step.count p.run s
    let (n, s) := Step.count q.run s
    (true, s.perform (a m n))
  | named name p, s =>
    if s.tooDeep.isSome then (false, s) else Step.undoing (Step.within name p.run) s

/-- All rules one after the other. -/
def seq : List Rule → Rule
  | [] => done
  | [r] => r
  | r :: rs => andThen r (seq rs)

/-- The first rule that matches. -/
def choice : List Rule → Rule
  | [] => never
  | [r] => r
  | r :: rs => orElse r (choice rs)

def optional (r : Rule) : Rule := orElse (attempt r) done

/-- Requires a terminal and has no use for its value. -/
def expect {α : Type} (t : Terminal α) : Rule := read (t.map fun _ => none)

/-- Requires a terminal and acts on its value. -/
def capture {α : Type} (t : Terminal α) (f : α → Action) : Rule := read (t.map fun a => some (f a))

def text (t : String) : Rule := expect (Terminal.literal t)

def gap : Rule := expect Terminal.gap

def operator (slot : Slot) : Rule :=
  choice (slot.map fun spelling =>
    capture spelling.terminal fun raw => .operation (String.ofList raw))

/-- One level deeper, where the nesting limit leaves a deeper expression. -/
def nested (inner : Option Rule) (body : Rule → Rule) : Rule :=
  match inner with
  | some e => .deeper (body e)
  | none => limit

/-- Elements with commas between them, possibly none, and possibly a comma at the end. -/
def commaList (element : Rule) : Rule :=
  optional (seq [element, many (seq [gap, text ",", gap, element]), gap, optional (text ",")])

/-- Operands with operators between them, folded to the left. -/
def chain (operand operator : Rule) (fold : Action) : Rule :=
  seq [operand, many (seq [operator, operand, act fold])]

end Rule

end FilterQuery.Grammar
