import FilterQuery.Text.Printable

/-!
The quoted form in which messages show a piece of text: double quotes around it, a backslash
before a quote or a backslash, short names for the common controls, and the code point in braces
for any other character that could not be seen.
-/
namespace FilterQuery.Text.Quoted

def codePoint (c : Char) : List Char :=
  ['\\', 'u', '\x7b'] ++ Nat.toDigits 16 c.toNat ++ ['\x7d']

def escape (c : Char) : List Char :=
  match c with
  | '"' => ['\\', '"']
  | '\\' => ['\\', '\\']
  | '\n' => ['\\', 'n']
  | '\r' => ['\\', 'r']
  | '\t' => ['\\', 't']
  | '\x00' => ['\\', '0']
  | _ => if isPrintable c then [c] else codePoint c

def quote (text : String) : String :=
  String.ofList ('"' :: text.toList.flatMap escape ++ ['"'])

end FilterQuery.Text.Quoted
