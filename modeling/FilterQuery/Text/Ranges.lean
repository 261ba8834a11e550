/-!
Sets of characters given by sorted closed ranges of code points. A table of ranges is how a
character property is written down; membership is decided by one pass that stops early.
-/
namespace FilterQuery.Text

abbrev Ranges := List (Nat × Nat)

namespace Ranges

/-- Membership in a sorted table: nothing after a range that starts above `n` can hold it. -/
def holds : Ranges → Nat → Bool
  | [], _ => false
  | (lo, hi) :: rest, n => if n < lo then false else n ≤ hi || holds rest n

end Ranges

end FilterQuery.Text
