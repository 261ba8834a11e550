/-!
Terminals. A terminal looks at the text ahead and either finds itself at its start or is missing.
A found terminal splits the text in two; a missing one tells how much it had passed before it
gave up, which is where the failure is reported.
-/
namespace FilterQuery.Scanner

inductive Reading (α : Type) where
  | found (value : α) (lexeme rest : List Char)
  | missing (passed : List Char)
deriving DecidableEq, Repr

abbrev Terminal (α : Type) := List Char → Reading α

namespace Terminal

def map {α β : Type} (f : α → β) (t : Terminal α) : Terminal β := fun text =>
  match t text with
  | .found a lexeme rest => .found (f a) lexeme rest
  | .missing passed => .missing passed

/-- One terminal after another. Failing in the second counts from the start of the first. -/
def followedBy {α β : Type} (p : Terminal α) (q : α → Terminal β) : Terminal β := fun text =>
  match p text with
  | .missing passed => .missing passed
  | .found a lexeme rest =>
    match q a rest with
    | .missing passed => .missing (lexeme ++ passed)
    | .found b lexeme' rest' => .found b (lexeme ++ lexeme') rest'

/-- Splits off the part of the text that a pattern matches, character by character. -/
def stripBy (same : Char → Char → Bool) :
    List Char → List Char → Option (List Char × List Char)
  | [], cs => some ([], cs)
  | _ :: _, [] => none
  | p :: ps, c :: cs =>
    if same p c then (stripBy same ps cs).map fun (lexeme, rest) => (c :: lexeme, rest) else none

def sameLetter (a b : Char) : Bool := a.toLower == b.toLower

def isIdentifierChar (c : Char) : Bool := c.isAlphanum || c == '_'

def startsWith (p : Char → Bool) : List Char → Bool
  | [] => false
  | c :: _ => p c

def literal (text : String) : Terminal Unit := fun cs =>
  match stripBy (· == ·) text.toList cs with
  | some (lexeme, rest) => .found () lexeme rest
  | none => .missing []

/-- A word is found only if no identifier character follows it. -/
def wordBy (same : Char → Char → Bool) (word : String) : Terminal (List Char) := fun cs =>
  match stripBy same word.toList cs with
  | some (lexeme, rest) =>
    if startsWith isIdentifierChar rest then .missing [] else .found lexeme lexeme rest
  | none => .missing []

/-- A word in any letter case, ASCII letters only. -/
def keyword (word : String) : Terminal (List Char) := wordBy sameLetter word

def exactWord (word : String) : Terminal (List Char) := wordBy (· == ·) word

def isBreak (c : Char) : Bool := c == '\n' || c == '\r'

def isBlankChar (c : Char) : Bool := c == ' ' || c == '\t' || isBreak c

/-- Two dashes or two slashes open a comment. -/
def opensComment : List Char → Bool
  | '-' :: '-' :: _ => true
  | '/' :: '/' :: _ => true
  | _ => false

/-- Splits off blanks and comments. A comment lasts until the line ends, and the break that ends
it is a blank itself. -/
def splitGap (inComment : Bool) : List Char → List Char × List Char
  | [] => ([], [])
  | c :: cs =>
    if (if inComment then !isBreak c else opensComment (c :: cs)) then
      let (gap, rest) := splitGap true cs
      (c :: gap, rest)
    else if isBlankChar c then
      let (gap, rest) := splitGap false cs
      (c :: gap, rest)
    else ([], c :: cs)

/-- Any run of blanks and comments, also none. -/
def gap : Terminal Unit := fun cs =>
  let (lexeme, rest) := splitGap false cs
  .found () lexeme rest

def someGap : Terminal Unit := fun cs =>
  match splitGap false cs with
  | ([], _) => .missing []
  | (lexeme, rest) => .found () lexeme rest

/-- Keywords with gaps between them; the value has single blanks there instead. -/
def phrase : List String → Terminal (List Char)
  | [] => fun cs => .found [] [] cs
  | [word] => keyword word
  | word :: words =>
    (keyword word).followedBy fun first =>
      someGap.followedBy fun _ =>
        (phrase words).map fun others => first ++ ' ' :: others

/-- A letter and the letters, digits and underscores after it, but not the word `not`. -/
def identifier : Terminal String
  | [] => .missing []
  | c :: cs =>
    if c.isAlpha then
      let lexeme := c :: cs.takeWhile isIdentifierChar
      if (lexeme.map Char.toLower) = ['n', 'o', 't'] then .missing []
      else .found (String.ofList lexeme) lexeme (cs.dropWhile isIdentifierChar)
    else .missing []

/-- What is between two equal quotes, with no escapes. Without a closing quote all of the text
has been passed. -/
def quoted : Terminal String
  | [] => .missing []
  | q :: cs =>
    if q == '\'' || q == '"' then
      let content := cs.takeWhile (· != q)
      match cs.dropWhile (· != q) with
      | [] => .missing (q :: cs)
      | close :: rest => .found (String.ofList content) (q :: content ++ [close]) rest
    else .missing []

/-- The text of a number: an integer, or a decimal if it has a fraction. -/
inductive Numeral where
  | integer (text : List Char)
  | decimal (text : List Char)
deriving DecidableEq, Repr

def splitDigits (cs : List Char) : List Char × List Char :=
  (cs.takeWhile Char.isDigit, cs.dropWhile Char.isDigit)

/-- A zero stands alone: digits after it do not belong to the number. -/
def splitWhole : List Char → Option (List Char × List Char)
  | [] => none
  | c :: cs =>
    if c == '0' then some (['0'], cs)
    else if c.isDigit then some (splitDigits (c :: cs))
    else none

/-- A point belongs to the number only if a digit follows it. -/
def splitFraction : List Char → Option (List Char × List Char)
  | '.' :: cs =>
    if startsWith Char.isDigit cs then
      let (ds, rest) := splitDigits cs
      some ('.' :: ds, rest)
    else none
  | _ => none

def splitSign : List Char → List Char × List Char
  | '-' :: cs => (['-'], cs)
  | cs => ([], cs)

def number : Terminal Numeral := fun cs =>
  let (sign, body) := splitSign cs
  match splitWhole body with
  | none => .missing sign
  | some (whole, rest) =>
    match splitFraction rest with
    | some (fraction, rest') =>
      .found (.decimal (sign ++ whole ++ fraction)) (sign ++ whole ++ fraction) rest'
    | none => .found (.integer (sign ++ whole)) (sign ++ whole) rest

def endOfText : Terminal Unit
  | [] => .found () [] []
  | _ :: _ => .missing []

end Terminal

end FilterQuery.Scanner
