import FilterQuery.Scanner.Terminal
import FilterQuery.Scanner.Trail
import FilterQuery.Text.Bytes
import FilterQuery.Text.Whitespace

/-!
A cursor in a text: the offset, the text ahead, and the trail of failures. Reading a terminal
moves the cursor past it, or leaves the cursor and adds to the trail.
-/
namespace FilterQuery.Scanner

open Text

structure Cursor where
  offset : Nat
  rest : List Char
  trail : Trail
deriving DecidableEq, Repr

namespace Cursor

def start (text : List Char) : Cursor := ⟨0, text, .empty⟩

def read {α : Type} (t : Terminal α) (c : Cursor) : Option α × Cursor :=
  match t c.rest with
  | .found a lexeme rest => (some a, { c with offset := c.offset + byteSize lexeme, rest })
  | .missing passed => (none, { c with trail := c.trail.fail (c.offset + byteSize passed) })

/-- Back to where `saved` stands; the trail stays. -/
def backTo (c saved : Cursor) : Cursor :=
  { c with offset := saved.offset, rest := saved.rest }

end Cursor

/-- How much of a text a message shows. -/
def excerptLength : Nat := 16

/-- The word ahead, cut to a length that fits a message; a space if that is what comes first. -/
def excerpt (ahead : List Char) : String :=
  let word := (ahead.takeWhile fun c => !isSpace c).take excerptLength
  if ahead.isEmpty then "end of input"
  else if word.isEmpty then String.ofList (ahead.take 1)
  else String.ofList word

/-- The excerpt at an offset; an offset that is not one of a character counts as the end. -/
def excerptAt (text : List Char) (offset : Nat) : String :=
  excerpt ((dropBytes? offset text).getD [])

end FilterQuery.Scanner
