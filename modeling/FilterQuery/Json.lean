/-!
JSON values and their text, compact or indented by two blanks a level. Numbers are kept as the
text that is to be written, and object fields in the order given.
-/
namespace FilterQuery

inductive Json where
  | null
  | bool (b : Bool)
  | number (text : List Char)
  | string (text : String)
  | array (elements : List Json)
  | object (fields : List (String × Json))
deriving Repr, Inhabited

namespace Json

/-- Two lower-case hexadecimal digits. -/
def hexByte (n : Nat) : List Char := [Nat.digitChar (n / 16), Nat.digitChar (n % 16)]

def escape (c : Char) : List Char :=
  match c with
  | '"' => ['\\', '"']
  | '\\' => ['\\', '\\']
  | '\x08' => ['\\', 'b']
  | '\x0c' => ['\\', 'f']
  | '\n' => ['\\', 'n']
  | '\r' => ['\\', 'r']
  | '\t' => ['\\', 't']
  | _ => if c.toNat < 0x20 then "\\u00".toList ++ hexByte c.toNat else [c]

def writeString (s : String) : List Char := '"' :: s.toList.flatMap escape ++ ['"']

mutual

def write : Json → List Char
  | null => "null".toList
  | bool b => if b then "true".toList else "false".toList
  | number text => text
  | string s => writeString s
  | array [] => ['[', ']']
  | array (v :: vs) => '[' :: v.write ++ writeElements vs ++ [']']
  | object [] => ['\x7b', '\x7d']
  | object ((k, v) :: fs) =>
    '\x7b' :: writeString k ++ ':' :: v.write ++ writeFields fs ++ ['\x7d']

def writeElements : List Json → List Char
  | [] => []
  | v :: vs => ',' :: v.write ++ writeElements vs

def writeFields : List (String × Json) → List Char
  | [] => []
  | (k, v) :: fs => ',' :: writeString k ++ ':' :: v.write ++ writeFields fs

end

def newline (level : Nat) : List Char := '\n' :: List.replicate (2 * level) ' '

mutual

def writeIndented (level : Nat) : Json → List Char
  | null => "null".toList
  | bool b => if b then "true".toList else "false".toList
  | number text => text
  | string s => writeString s
  | array [] => ['[', ']']
  | array (v :: vs) =>
    '[' :: newline (level + 1) ++ v.writeIndented (level + 1) ++
      indentedElements (level + 1) vs ++ newline level ++ [']']
  | object [] => ['\x7b', '\x7d']
  | object ((k, v) :: fs) =>
    '\x7b' :: newline (level + 1) ++ writeString k ++ ": ".toList ++ v.writeIndented (level + 1) ++
      indentedFields (level + 1) fs ++ newline level ++ ['\x7d']

def indentedElements (level : Nat) : List Json → List Char
  | [] => []
  | v :: vs => ',' :: newline level ++ v.writeIndented level ++ indentedElements level vs

def indentedFields (level : Nat) : List (String × Json) → List Char
  | [] => []
  | (k, v) :: fs =>
    ',' :: newline level ++ writeString k ++ ": ".toList ++ v.writeIndented level ++
      indentedFields level fs

end

def compact (j : Json) : String := String.ofList j.write

def pretty (j : Json) : String := String.ofList (j.writeIndented 0)

end Json

end FilterQuery
