import Stencil.Script.Library.Text
import Stencil.Script.Library.Number
import Stencil.Script.Library.Container

/-!
# The library of the script language

All functions of the language that call no function of the script, and the properties of values
that are no maps.
-/

namespace Stencil.Script.Library

def onAny (name : String) : List Value → Option Native
  | [v] =>
    match name with
    | "to_string" => some (.value (.string v.display))
    | "to_debug" => some (.value (.string v.displayNested))
    | "type_of" => some (.value (.string v.kind))
    | "print" | "debug" => some (.value .unit)
    | _ => none
  | _ => none

def native? : Natives := fun name args =>
  (onAny name args).or <| (onText name args).or <| (onNumber name args).or <|
    onContainer name args

/-- The functions that can also be read as properties. -/
def propertyNames : Value → List String
  | .string _ => ["len", "bytes", "chars", "is_empty"]
  | .array _ => ["len", "is_empty"]
  | .range .. => ["start", "end", "is_inclusive", "is_exclusive", "is_empty"]
  | .int _ => ["is_zero", "is_odd", "is_even"]
  | .float _ =>
    ["is_zero", "is_nan", "is_finite", "is_infinite", "floor", "ceiling", "round", "int",
      "fraction"]
  | _ => []

def property? (name : String) (v : Value) : Option Value :=
  match v with
  | .pointer f curried =>
    if name = "name" then some (.string f)
    else if name = "is_anonymous" then some (.bool ("anon$".toList.isPrefixOf f.toList))
    else if name = "curry" then some (.array curried)
    else none
  | v =>
    if (propertyNames v).contains name then
      match native? name [v] with
      | some (.value r) => some r
      | _ => none
    else none

end Stencil.Script.Library
