import FilterQuery.Number.Decimal
import FilterQuery.Number.Integer

/-!
Literal values. Arrays may hold any values here; what a query can write is narrower. Two values
agree when they are the same up to the scale of their decimals.
-/
namespace FilterQuery

open Number

inductive Value where
  | int (n : Int64)
  | decimal (d : Decimal)
  | bool (b : Bool)
  | string (s : String)
  | null
  | array (elements : List Value)
deriving Repr, Inhabited

namespace Value

def kind : Value → String
  | int _ => "int"
  | decimal _ => "float"
  | bool _ => "bool"
  | string _ => "string"
  | null => "null"
  | array _ => "array"

def isNull : Value → Bool
  | null => true
  | _ => false

def int? : Value → Option Int64
  | int n => some n
  | _ => none

def string? : Value → Option String
  | string s => some s
  | _ => none

def elements? : Value → Option (List Value)
  | array es => some es
  | _ => none

mutual

def agrees : Value → Value → Bool
  | int a, int b => a == b
  | decimal a, decimal b => a.agrees b
  | bool a, bool b => a == b
  | string a, string b => a == b
  | null, null => true
  | array as, array bs => agreesAll as bs
  | _, _ => false

def agreesAll : List Value → List Value → Bool
  | [], [] => true
  | a :: as, b :: bs => a.agrees b && agreesAll as bs
  | _, _ => false

end

end Value

end FilterQuery
