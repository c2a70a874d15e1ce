import Stencil.Fields

/-!
# JSON values

Whole numbers and numbers with a fraction or an exponent are different values, also where they are
numerically equal.
-/

namespace Stencil

inductive Json where
  | null
  | bool (value : Bool)
  | integer (value : Int)
  | float (value : Float)
  | string (value : String)
  | array (items : List Json)
  /-- The fields are increasing in their names. -/
  | object (fields : List (String × Json))
  deriving Inhabited

namespace Json

/-- Builds an object from pairs in any order; the last of two equal names wins. -/
def ofPairs (pairs : List (String × Json)) : Json := .object (Fields.ofList pairs)

def field? (name : String) : Json → Option Json
  | .object fields => Fields.get? name fields
  | _ => none

def string? : Json → Option String
  | .string s => some s
  | _ => none

def bool? : Json → Option Bool
  | .bool b => some b
  | _ => none

mutual

/-- Equality of values; floats are compared as numbers. -/
def same : Json → Json → Bool
  | .null, .null => true
  | .bool a, .bool b => a == b
  | .integer a, .integer b => a == b
  | .float a, .float b => a == b
  | .string a, .string b => a == b
  | .array a, .array b => sameItems a b
  | .object a, .object b => sameFields a b
  | _, _ => false

def sameItems : List Json → List Json → Bool
  | [], [] => true
  | a :: as, b :: bs => same a b && sameItems as bs
  | _, _ => false

def sameFields : List (String × Json) → List (String × Json) → Bool
  | [], [] => true
  | (m, a) :: as, (n, b) :: bs => m == n && same a b && sameFields as bs
  | _, _ => false

end

end Json

end Stencil
