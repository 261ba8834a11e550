import FilterQuery.Text.Ranges

/-!
The White_Space property of Unicode, and the three operations built on it: trimming a text,
asking whether anything is left, and squeezing every inner run to one blank.
-/
namespace FilterQuery.Text

def whitespace : Ranges :=
  [(0x9, 0xd), (0x20, 0x20), (0x85, 0x85), (0xa0, 0xa0), (0x1680, 0x1680), (0x2000, 0x200a),
    (0x2028, 0x2029), (0x202f, 0x202f), (0x205f, 0x205f), (0x3000, 0x3000)]

def isSpace (c : Char) : Bool := whitespace.holds c.toNat

def trimStart (cs : List Char) : List Char := cs.dropWhile isSpace

def trimEnd (cs : List Char) : List Char := (trimStart cs.reverse).reverse

def trim (cs : List Char) : List Char := trimEnd (trimStart cs)

/-- A text is blank when trimming leaves nothing of it. -/
def isBlank (text : String) : Bool := text.toList.all isSpace

/-- Writes one blank for each run of spaces; `inRun` says that the run is already written. -/
def squeezeFrom (inRun : Bool) : List Char → List Char
  | [] => []
  | c :: cs =>
    if isSpace c then
      if inRun then squeezeFrom true cs else ' ' :: squeezeFrom true cs
    else c :: squeezeFrom false cs

def squeeze (cs : List Char) : List Char := squeezeFrom false cs

end FilterQuery.Text
