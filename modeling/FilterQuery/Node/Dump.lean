import FilterQuery.Json
import FilterQuery.Node

/-!
The JSON form of a tree. Each node is an object that names its kind, with the fields in
alphabetical order; decimals are written with exactly the digits they have.
-/
namespace FilterQuery

open Number

mutual

def Value.toJson : Value → Json
  | .null => .null
  | .bool b => .bool b
  | .int n => .number (Integer.spell n)
  | .decimal d => .number d.spell
  | .string s => .string s
  | .array es => .array (Value.listToJson es)

def Value.listToJson : List Value → List Json
  | [] => []
  | v :: vs => v.toJson :: Value.listToJson vs

end

namespace Node

/-- The last field of every node but a value, where the value's own kind comes after it. -/
def kindField (n : Node) : String × Json := ("type", .string n.kind.name)

mutual

def toJson : Node → Json
  | value v =>
    .object [kindField (value v), ("value", v.toJson), ("value_type", .string v.kind)]
  | operation op => .object [("operation", .string op.code), kindField (operation op)]
  | identifier name => .object [("name", .string name), kindField (identifier name)]
  | reference r =>
    .object [("accessors", .array (r.accessors.map fun a => .string a.text)),
      ("names", .array (r.names.map .string)), kindField (reference r)]
  | compare l op r =>
    .object [("left", l.toJson), ("op", .string op.code), ("right", r.toJson),
      kindField (compare l op r)]
  | logic l op r =>
    .object [("left", l.toJson), ("op", .string op.code), ("right", r.toJson),
      kindField (logic l op r)]
  | predicate l op =>
    .object [("left", l.toJson), ("op", .string op.code), kindField (predicate l op)]
  | not inner => .object [("expression", inner.toJson), kindField (not inner)]
  | parentheses inner => .object [("expression", inner.toJson), kindField (parentheses inner)]
  | between l op low high =>
    .object [("left", l.toJson), ("op", .string op.code),
      ("params", .array [low.toJson, high.toJson]), kindField (between l op low high)]
  | function name params =>
    .object [("name", .string name), ("params", .array (listToJson params)),
      kindField (function name params)]

def listToJson : List Node → List Json
  | [] => []
  | n :: ns => n.toJson :: listToJson ns

end

end Node

end FilterQuery
