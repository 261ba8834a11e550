/-!
References: a name followed by steps into it. A dot reaches a field and an arrow reaches into a
JSON document.
-/
namespace FilterQuery

inductive Accessor where
  | dot
  | arrow
deriving DecidableEq, Repr, Inhabited

def Accessor.text : Accessor → String
  | .dot => "."
  | .arrow => "->"

structure Reference where
  head : String
  steps : List (Accessor × String)
deriving DecidableEq, Repr, Inhabited

namespace Reference

def names (r : Reference) : List String := r.head :: r.steps.map (·.2)

def accessors (r : Reference) : List Accessor := r.steps.map (·.1)

def isJsonPath (r : Reference) : Bool := r.accessors.contains .arrow

end Reference

end FilterQuery
