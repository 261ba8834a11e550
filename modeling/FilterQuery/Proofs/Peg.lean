import FilterQuery.Grammar.Slot
import FilterQuery.Proofs.Draft

/-!
The query grammar as a parsing expression grammar, down to the characters. An expression of the
grammar denotes a value for every text that it matches: rules for expressions denote drafts, rules
for operators denote operators. Nothing here refers to a cursor, a stack or a scanner.
-/
namespace FilterQuery.Grammar

open Scanner

/-- The rules of the grammar, by the type of what they denote. -/
inductive Symbol : Type → Type where
  | grammar : Symbol Draft
  | expression : Symbol Draft
  | logicExpression : Symbol Draft
  | notExpression : Symbol Draft
  | compareExpression : Symbol Draft
  | compareInExpression : Symbol Draft
  | predicateExpression : Symbol Draft
  | betweenExpression : Symbol Draft
  | primaryExpression : Symbol Draft
  | argumentList : Symbol (List Draft)
  | argument : Symbol Draft
  | reference : Symbol Draft
  | identifier : Symbol String
  | compare : Symbol Operator
  | logic : Symbol Operator
  | test : Symbol Operator
  | value : Symbol Draft
  | array : Symbol (List Literal)
  | literal : Symbol Literal

inductive Peg : Type → Type 1 where
  | never {α : Type} : Peg α
  /-- Matches the empty text. -/
  | pure {α : Type} (a : α) : Peg α
  | char {α : Type} (ok : Char → Bool) (f : Char → α) : Peg α
  | seq {α β γ : Type} (f : α → β → γ) (p : Peg α) (q : Peg β) : Peg γ
  /-- Ordered: `q` counts only where `p` fails. -/
  | choice {α : Type} (p q : Peg α) : Peg α
  /-- Greedy. -/
  | star {α β : Type} (f : List α → β) (p : Peg α) : Peg β
  /-- Looks ahead: matches the empty text where `p` fails. -/
  | absent {α β : Type} (p : Peg α) (b : β) : Peg β
  /-- Matches as `p` does, provided that the value passes a test. -/
  | guard {α : Type} (p : Peg α) (ok : α → Bool) : Peg α
  /-- Matches as `p` does, one level of brackets deeper. -/
  | deeper {α : Type} (p : Peg α) : Peg α
  | call {α : Type} (s : Symbol α) : Peg α

namespace Peg

def map {α β : Type} (f : α → β) (p : Peg α) : Peg β := seq (fun a _ => f a) p (pure ())

/-- First `p`, then `q`, for the value of `q`. -/
def before {α β : Type} (p : Peg α) (q : Peg β) : Peg β := seq (fun _ b => b) p q

/-- First `p`, then `q`, for the value of `p`. -/
def followedBy {α β : Type} (p : Peg α) (q : Peg β) : Peg α := seq (fun a _ => a) p q

def pair {α β : Type} (p : Peg α) (q : Peg β) : Peg (α × β) := seq Prod.mk p q

def optional {α : Type} (p : Peg α) : Peg (Option α) := choice (map some p) (pure none)

def many {α : Type} (p : Peg α) : Peg (List α) := star id p

def many1 {α : Type} (p : Peg α) : Peg (List α) := seq (fun a as => a :: as) p (many p)

def firstOf {α : Type} : List (Peg α) → Peg α
  | [] => never
  | [p] => p
  | p :: ps => choice p (firstOf ps)

/-! The characters of a text, of words and of gaps. -/

def oneChar (ok : Char → Bool) : Peg Char := char ok id

/-- The characters of a pattern, each up to a likeness. -/
def likeness (same : Char → Char → Bool) : List Char → Peg Unit
  | [] => pure ()
  | c :: cs => before (oneChar (same c)) (likeness same cs)

def text (t : String) : Peg Unit := likeness (· == ·) t.toList

def endOfText : Peg Unit := absent (oneChar fun _ => true) ()

/-- No identifier character comes next. -/
def wordEnd : Peg Unit := absent (oneChar Terminal.isIdentifierChar) ()

/-- A word in its exact letter case. -/
def exactWord (word : String) : Peg Unit := followedBy (text word) wordEnd

/-- A word in any letter case, ASCII letters only. -/
def keyword (word : String) : Peg Unit :=
  followedBy (likeness Terminal.sameLetter word.toList) wordEnd

def blank : Peg Unit := char Terminal.isBlankChar fun _ => ()

/-- A comment lasts until its line ends. -/
def comment : Peg Unit :=
  before (choice (text "--") (text "//")) (star (fun _ => ()) (oneChar (!Terminal.isBreak ·)))

/-- Any run of blanks and comments, also none: `_`. -/
def gap : Peg Unit := star (fun _ => ()) (choice blank comment)

/-- A run of blanks and comments: `__`. -/
def someGap : Peg Unit := before (choice blank comment) gap

/-- Keywords with gaps between them. -/
def phrase : List String → Peg Unit
  | [] => pure ()
  | [word] => keyword word
  | word :: words => before (keyword word) (before someGap (phrase words))

/-! Names and literals. -/

def isNot (name : List Char) : Bool := name.map Char.toLower == ['n', 'o', 't']

/-- A letter and the letters, digits and underscores after it, except the word `not`. -/
def name : Peg String :=
  map String.ofList (guard
    (seq (fun c cs => c :: cs) (oneChar Char.isAlpha) (many (oneChar Terminal.isIdentifierChar)))
    fun name => !isNot name)

/-- What is between two equal quotes, with no escapes. -/
def quotedBy (quote : Char) : Peg String :=
  before (oneChar (· == quote))
    (followedBy (map String.ofList (many (oneChar (· != quote)))) (oneChar (· == quote)))

def quoted : Peg String := choice (quotedBy '\'') (quotedBy '"')

def sign : Peg (List Char) := map Option.toList (optional (oneChar (· == '-')))

/-- Digits of which the first is no zero, or a zero alone. -/
def whole : Peg (List Char) :=
  choice (map (fun c => [c]) (oneChar (· == '0')))
    (seq (fun c cs => c :: cs) (oneChar Char.isDigit) (many (oneChar Char.isDigit)))

def fraction : Peg (List Char) :=
  seq (fun c cs => c :: cs) (oneChar (· == '.')) (many1 (oneChar Char.isDigit))

/-- A number with a fraction is a decimal, any other an integer. -/
def number : Peg Literal :=
  seq (fun sign (body : List Char × Option (List Char)) =>
      match body with
      | (whole, none) => .integer (String.ofList (sign ++ whole))
      | (whole, some fraction) => .decimal (String.ofList (sign ++ (whole ++ fraction))))
    sign (pair whole (optional fraction))

end Peg

/-- Words with single blanks between them. -/
def joinWords : List String → List Char
  | [] => []
  | [word] => word.toList
  | word :: words => word.toList ++ ' ' :: joinWords words

namespace Spelling

/-- The operator that a spelling stands for. -/
def operator : Spelling → Operator
  | symbol text => .ofSpelling text
  | phrase words => .ofSpelling (String.ofList (joinWords words))

def peg (s : Spelling) : Peg Operator :=
  match s with
  | symbol text => (Peg.text text).map fun _ => s.operator
  | phrase words => (Peg.phrase words).map fun _ => s.operator

end Spelling

/-- The spellings of a slot in their order. -/
def Slot.peg (slot : Slot) : Peg Operator := Peg.firstOf (slot.map Spelling.peg)

end FilterQuery.Grammar

namespace FilterQuery.Draft

open Grammar

/-! How the parts of a rule make up a draft. Chains fold to the left. -/

def foldLeft (make : Draft → Operator → Draft → Draft) (d : Draft)
    (parts : List (Operator × Draft)) : Draft :=
  parts.foldl (fun left part => make left part.1 part.2) d

def withElements (d : Draft) : Option (Operator × List Literal) → Draft
  | some (op, elements) => .compare d op (.array elements)
  | none => d

def withTest (d : Draft) : Option Operator → Draft
  | some op => .predicate d op
  | none => d

def withBounds (d : Draft) : Option (Operator × Draft × Draft) → Draft
  | some (op, low, high) => .between d op low high
  | none => d

def pathSteps (dots arrows : List String) : List (Accessor × String) :=
  dots.map (Accessor.dot, ·) ++ arrows.map (Accessor.arrow, ·)

/-- A name without steps is an identifier. -/
def ofPath (head : String) : List (Accessor × String) → Draft
  | [] => .identifier head
  | steps => .reference ⟨head, steps⟩

end FilterQuery.Draft

namespace FilterQuery.Grammar

namespace Peg

/-- Elements with commas between them, possibly none, and possibly a comma at the end. -/
def commaList {α : Type} (p : Peg α) : Peg (List α) :=
  map (Option.getD · []) (optional
    (seq (fun a as => a :: as) p
      (followedBy (many (before gap (before (text ",") (before gap p))))
        (before gap (optional (text ","))))))

def bracketed (opening closing : String) : Peg (List Literal) :=
  before (text opening)
    (before gap (followedBy (commaList (call .literal)) (before gap (text closing))))

/-- The word `not` is optional before `between`. -/
def range : Peg Operator :=
  seq (fun negation _ => if negation.isSome then .notBetween else .between)
    (optional (before (keyword "not") someGap)) (keyword "between")

/-- Two values with `and` between them, or a pair in square brackets. -/
def bounds : Peg (Draft × Draft) :=
  choice
    (pair (call .value) (before gap (before (keyword "and") (before gap (call .value)))))
    (before (text "[") (before gap (pair (call .value)
      (before gap (before (text ",") (before gap
        (followedBy (call .value) (before gap (text "]")))))))))

def step (accessor : Accessor) : Peg String :=
  before (text accessor.text) (call .identifier)

end Peg

namespace Symbol

open Peg

/-- What each rule of the grammar matches. -/
def body : {α : Type} → Symbol α → Peg α
  | _, grammar => before gap (followedBy (call expression) (before gap endOfText))
  | _, expression => call logicExpression
  | _, logicExpression =>
    seq (Draft.foldLeft Draft.logic) (call notExpression)
      (many (pair (call logic) (call notExpression)))
  | _, notExpression =>
    choice (call compareExpression)
      (map Draft.not (before gap (before (keyword "not") (before gap (call compareExpression)))))
  | _, compareExpression =>
    seq (Draft.foldLeft Draft.compare) (call compareInExpression)
      (many (pair (call compare) (call compareInExpression)))
  | _, compareInExpression =>
    seq Draft.withElements (call predicateExpression)
      (optional (before gap (pair Slot.oneOf.peg (before gap (call array)))))
  | _, predicateExpression =>
    seq Draft.withTest (call betweenExpression) (optional (call test))
  | _, betweenExpression =>
    seq Draft.withBounds (call primaryExpression)
      (optional (before gap (pair range (before gap bounds))))
  | _, primaryExpression =>
    firstOf
      [map Draft.parentheses (before (text "(")
          (before gap (followedBy (deeper (call expression)) (before gap (text ")"))))),
        call value,
        seq Draft.function (call identifier) (call argumentList),
        call reference]
  | _, argumentList =>
    before (text "(")
      (before gap (followedBy (deeper (commaList (call argument))) (before gap (text ")"))))
  | _, argument => call expression
  | _, reference =>
    map (fun path => Draft.ofPath path.1 path.2) (pair (call identifier)
      (seq Draft.pathSteps (many (step .dot)) (many (step .arrow))))
  | _, identifier => name
  | _, compare => before gap (followedBy Slot.compare.peg gap)
  | _, logic => before gap (followedBy Slot.logic.peg gap)
  | _, test => before someGap (followedBy Slot.test.peg gap)
  | _, value => choice (map Draft.literal (call literal)) (map Draft.array (call array))
  | _, array => choice (Peg.bracketed "[" "]") (Peg.bracketed "(" ")")
  | _, literal =>
    firstOf
      [map (fun _ => .null) (exactWord "null"), map (fun _ => .null) (exactWord "NULL"),
        map (fun _ => .bool true) (exactWord "true"), map (fun _ => .bool true) (exactWord "TRUE"),
        map (fun _ => .bool false) (exactWord "false"),
        map (fun _ => .bool false) (exactWord "FALSE"), map .string quoted, number]

end Symbol

end FilterQuery.Grammar
