import FilterQuery.Text.Capitals

/-!
Full Unicode lower-casing. A letter maps to its small form whatever surrounds it, with two
exceptions: the dotted capital I becomes two characters, and a capital sigma at the end of a
word becomes the final small sigma.
-/
namespace FilterQuery.Text

def lowerCode (n : Nat) : Nat :=
  match capitals.find? (·.has n) with
  | some run => run.lower n
  | none => n

def lowerChar (c : Char) : List Char :=
  if c = 'İ' then ['i', '\u0307'] else [Char.ofNat (lowerCode c.toNat)]

/-- The first character that is not case-ignorable is a cased letter. -/
def meetsCased : List Char → Bool
  | [] => false
  | c :: cs => if caseIgnorable.holds c.toNat then meetsCased cs else cased.holds c.toNat

/-- Lower-cases what follows `before`, the characters already passed, the nearest first. -/
def lowerFrom (before : List Char) : List Char → List Char
  | [] => []
  | c :: cs =>
    let small :=
      if c = 'Σ' then [if meetsCased before && !meetsCased cs then 'ς' else 'σ'] else lowerChar c
    small ++ lowerFrom (c :: before) cs

def lowercase (cs : List Char) : List Char := lowerFrom [] cs

end FilterQuery.Text
