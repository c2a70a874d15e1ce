import Stencil.Script.Word
import Stencil.Json.Basic

/-!
# Values of the script language

Integers have 64 bits, floats are doubles, strings are texts and maps have named fields.  A variable
that a closure captures becomes shared: the closure and the variable then hold the same cell.
-/

namespace Stencil.Script

inductive Value where
  | unit
  | bool (value : Bool)
  | int (value : Int)
  | float (value : Float)
  | char (value : Char)
  | string (value : String)
  | array (items : List Value)
  /-- The fields are increasing in their names. -/
  | map (fields : List (String × Value))
  | range (first last : Int) (inclusive : Bool)
  /-- A pointer to the function `name` with arguments that are supplied before those of a call. -/
  | pointer (name : String) (curried : List Value)
  | cell (id : Nat)
  deriving Inhabited

namespace Value

/-! ## Values of specs -/

mutual

/-- The value of a JSON value; a whole number of more than 64 bits with sign becomes a float. -/
def ofJson : Json → Value
  | .null => .unit
  | .bool b => .bool b
  | .integer i => if fitsInt i then .int i else .float (Float.ofInt i)
  | .float x => .float x
  | .string s => .string s
  | .array items => .array (ofItems items)
  | .object fields => .map (ofFields fields)

def ofItems : List Json → List Value
  | [] => []
  | v :: rest => ofJson v :: ofItems rest

def ofFields : List (String × Json) → List (String × Value)
  | [] => []
  | (name, v) :: rest => (name, ofJson v) :: ofFields rest

end

/-! ## Kinds -/

def kind : Value → String
  | .unit => "()"
  | .bool _ => "bool"
  | .int _ => "i64"
  | .float _ => "f64"
  | .char _ => "char"
  | .string _ => "string"
  | .array _ => "array"
  | .map _ => "map"
  | .range _ _ false => "range"
  | .range _ _ true => "range="
  | .pointer .. => "Fn"
  | .cell _ => "shared"

def argumentKind : Value → String
  | .string _ => "&str | ImmutableString | String"
  | v => v.kind

end Value

end Stencil.Script
