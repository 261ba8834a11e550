/-!
Failure tracking. The trail knows which rules are open and the furthest offset at which a match
has failed so far, with the innermost rule open when that offset was first reached.
-/
namespace FilterQuery.Scanner

structure Trail where
  rules : List String
  furthest : Option (Nat × String)
deriving DecidableEq, Repr

namespace Trail

def empty : Trail := ⟨[], none⟩

/-- The rule that failures outside of any rule are charged to. -/
def outermost : String := "Grammar"

def enter (t : Trail) (rule : String) : Trail := { t with rules := rule :: t.rules }

def leave (t : Trail) : Trail := { t with rules := t.rules.tail }

def innermost (t : Trail) : String := t.rules.head?.getD outermost

/-- Only a failure beyond all earlier ones changes the record. -/
def fail (t : Trail) (offset : Nat) : Trail :=
  if t.furthest.all fun best => best.1 < offset then
    { t with furthest := some (offset, t.innermost) }
  else t

/-- The furthest failure; before any failure, where the cursor stands. -/
def report (t : Trail) (offset : Nat) : Nat × String :=
  t.furthest.getD (offset, outermost)

end Trail

end FilterQuery.Scanner
