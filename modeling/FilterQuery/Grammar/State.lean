import FilterQuery.Assembly
import FilterQuery.Scanner.Cursor

/-!
The state of a parse: the cursor in the text, the assembly of the tree, the journal, the depth of
nesting, and whether the nesting limit was hit. A step that fails can be undone, which moves the
cursor back and rewinds the assembly, while the trail of failures and the journal stay.
-/
namespace FilterQuery.Grammar

open Scanner

structure State where
  cursor : Cursor
  assembly : Assembly
  /-- The latest entry first. -/
  journal : Journal
  /-- How many levels of brackets are open around the cursor. -/
  depth : Nat
  /-- Where the nesting limit was hit first; from then on every named rule fails. -/
  tooDeep : Option Nat
deriving Repr

namespace State

def start (text : List Char) : State := ⟨.start text, .empty, [], 0, none⟩

def perform (s : State) (a : Action) : State :=
  { s with
    assembly := s.assembly.perform a
    journal := (s.assembly.eventsOf a).reverse ++ s.journal }

def enter (s : State) (rule : String) : State :=
  { s with cursor := { s.cursor with trail := s.cursor.trail.enter rule } }

def leave (s : State) : State :=
  { s with cursor := { s.cursor with trail := s.cursor.trail.leave } }

def descend (s : State) : State := { s with depth := s.depth + 1 }

def ascend (s : State) : State := { s with depth := s.depth - 1 }

def hitLimit (s : State) : State :=
  { s with tooDeep := s.tooDeep.or (some s.cursor.offset) }

/-- Undoes what was done since `saved`. -/
def backTo (s saved : State) : State :=
  { s with
    cursor := s.cursor.backTo saved.cursor
    assembly := s.assembly.rewind saved.assembly.checkpoint
    journal := s.assembly.rewindEvents saved.assembly.checkpoint ++ s.journal }

end State

/-- Something that matches or fails, with the state after it. -/
abbrev Step := State → Bool × State

namespace Step

/-- Undoes a failed step. -/
def undoing (step : Step) : Step := fun s =>
  match step s with
  | (true, s') => (true, s')
  | (false, s') => (false, s'.backTo s)

/-- The step under the name of a rule. -/
def within (rule : String) (step : Step) : Step := fun s =>
  let (matched, s') := step (s.enter rule)
  (matched, s'.leave)

/-- The step one level of brackets deeper. -/
def deeper (step : Step) : Step := fun s =>
  let (matched, s') := step s.descend
  (matched, s'.ascend)

/-- Reads a terminal and performs the action that it stands for, if any. -/
def read (t : Terminal (Option Action)) : Step := fun s =>
  match s.cursor.read t with
  | (some (some a), c) => (true, { s with cursor := c }.perform a)
  | (some none, c) => (true, { s with cursor := c })
  | (none, c) => (false, { s with cursor := c })

/-- Up to `rounds` matches in a row, and how many there were. A match that does not move the
cursor is the last one. -/
def repeatUpTo (step : Step) : Nat → State → Nat × State
  | 0, s => (0, s)
  | rounds + 1, s =>
    match undoing step s with
    | (false, s') => (0, s')
    | (true, s') =>
      if s'.cursor.offset = s.cursor.offset then (1, s')
      else
        let (n, s'') := repeatUpTo step rounds s'
        (n + 1, s'')

/-- As many matches as there are. Every round but the last moves the cursor, so the text ahead
bounds their number. -/
def count (step : Step) (s : State) : Nat × State :=
  repeatUpTo step (s.cursor.rest.length + 1) s

end Step

end FilterQuery.Grammar
