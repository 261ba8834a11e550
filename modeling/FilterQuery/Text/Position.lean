import FilterQuery.Text.Bytes

/-!
Lines and columns. Both count from one and columns count characters; a line feed, a carriage
return, and the two together each end one line.
-/
namespace FilterQuery.Text

structure Position where
  line : Nat
  column : Nat
deriving DecidableEq, Repr

namespace Position

def start : Position := ⟨1, 1⟩

def nextLine (p : Position) : Position := ⟨p.line + 1, 1⟩

def nextColumn (p : Position) : Position := ⟨p.line, p.column + 1⟩

/-- Where one stands after reading a text that begins at `p`. -/
def advance (p : Position) : List Char → Position
  | [] => p
  | '\r' :: '\n' :: cs => p.nextLine.advance cs
  | '\r' :: cs => p.nextLine.advance cs
  | '\n' :: cs => p.nextLine.advance cs
  | _ :: cs => p.nextColumn.advance cs

/-- The position of a byte offset; an offset past the end counts as the end. -/
def locate (text : List Char) (offset : Nat) : Position :=
  start.advance (takeBytes offset text)

/-- As `locate`, but an offset inside a character has no position. -/
def locate? (text : List Char) (offset : Nat) : Option Position :=
  (dropBytes? (min offset (byteSize text)) text).map fun _ => locate text offset

def describe (p : Position) : String := s!"line {p.line}, column {p.column}"

end Position

end FilterQuery.Text
