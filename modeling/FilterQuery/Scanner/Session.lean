import FilterQuery.Scanner.Cursor

/-!
A scanning session: one text, a cursor that may be set to any offset, and the requests that can
be made of it. A request that has to look at the text ahead has no answer when the offset is not
one of a character.
-/
namespace FilterQuery.Scanner

open Text

structure Session where
  text : List Char
  offset : Nat
  trail : Trail
deriving DecidableEq, Repr

inductive Request where
  | literal (text : String)
  | keyword (word : String)
  | exactWord (word : String)
  | skipGap
  | requireGap
  | identifier
  | quoted
  | number
  | atEnd
  | requireEnd
  | fail
  | excerpt (offset : Nat)
  | wholeText
  | enter (rule : String)
  | leave
  | reset (offset : Nat)
deriving DecidableEq, Repr

inductive Answer where
  | nothing
  | flag (b : Bool)
  | text (s : String)
  | numeral (n : Terminal.Numeral)
deriving DecidableEq, Repr

namespace Session

def start (text : List Char) : Session := ⟨text, 0, .empty⟩

def furthest (s : Session) : Nat × String := s.trail.report s.offset

def isAtEnd (s : Session) : Bool := byteSize s.text ≤ s.offset

def fail (s : Session) : Session := { s with trail := s.trail.fail s.offset }

/-- Reads a terminal at the offset, if there is a text ahead of it. -/
def read {α : Type} (s : Session) (t : Terminal α) (answer : Option α → Answer) :
    Option (Answer × Session) :=
  (dropBytes? s.offset s.text).map fun rest =>
    let (a, c) := Cursor.read t ⟨s.offset, rest, s.trail⟩
    (answer a, { s with offset := c.offset, trail := c.trail })

def flag {α : Type} (a : Option α) : Answer := .flag a.isSome

def textOrNothing : Option String → Answer
  | some s => .text s
  | none => .nothing

def numeralOrNothing : Option Terminal.Numeral → Answer
  | some n => .numeral n
  | none => .nothing

def perform (s : Session) : Request → Option (Answer × Session)
  | .literal text => s.read (Terminal.literal text) flag
  | .keyword word => s.read (Terminal.keyword word) flag
  | .exactWord word => s.read (Terminal.exactWord word) flag
  | .skipGap => s.read Terminal.gap fun _ => .nothing
  | .requireGap => s.read Terminal.someGap flag
  | .identifier => s.read Terminal.identifier textOrNothing
  | .quoted => s.read Terminal.quoted textOrNothing
  | .number => s.read Terminal.number numeralOrNothing
  | .atEnd => some (.flag s.isAtEnd, s)
  | .requireEnd => some (.flag s.isAtEnd, if s.isAtEnd then s else s.fail)
  | .fail => some (.flag false, s.fail)
  | .excerpt offset => some (.text (excerptAt s.text offset), s)
  | .wholeText => some (.text (String.ofList s.text), s)
  | .enter rule => some (.nothing, { s with trail := s.trail.enter rule })
  | .leave => some (.nothing, { s with trail := s.trail.leave })
  | .reset offset => some (.nothing, { s with offset })

end Session

end FilterQuery.Scanner
