import Stencil.Script.Value
import Stencil.Decimal.Layout
import Stencil.Text.Printable
import Stencil.Text.Quoted

/-!
# Text of values

A value by itself is displayed plainly; inside arrays and maps strings are quoted and floats laid
out so that they stay apart from whole numbers.  A substitution renders the unit and the empty map,
the default of an undefined field, as nothing.  The literal of a spec value is the script expression
that denotes it.
-/

namespace Stencil.Script

open Stencil.Text

def displayQuotedChar (c : Char) : String :=
  if c = '\'' then "'\\''"
  else if c = '"' then "'\"'"
  else String.ofList ('\'' :: (displayChar c ++ ['\'']))

/-- The display of a range; one without an end has the greatest number for its last. -/
def displayRange (first last : Int) (inclusive : Bool) : String :=
  if last = maxInt && !inclusive then toString first ++ ".."
  else toString first ++ (if inclusive then "..=" else "..") ++ toString last

namespace Value

mutual

def displayNested : Value → String
  | .unit => "()"
  | .bool b => if b then "true" else "false"
  | .int i => toString i
  | .float x => Decimal.nested.write x
  | .char c => displayQuotedChar c
  | .string s => displayQuoted s
  | .array items => "[" ++ String.intercalate ", " (displayItems items) ++ "]"
  | .map fields => "#\x7b" ++ String.intercalate ", " (displayFields fields) ++ "\x7d"
  | .range a b i => displayRange a b i
  | .pointer name _ => "Fn(" ++ name ++ ")"
  | .cell _ => "shared"

def displayItems : List Value → List String
  | [] => []
  | v :: rest => displayNested v :: displayItems rest

def displayFields : List (String × Value) → List String
  | [] => []
  | (n, v) :: rest => (displayQuoted n ++ ": " ++ displayNested v) :: displayFields rest

end

def display : Value → String
  | .unit => ""
  | .float x => Decimal.plain.write x
  | .char c => String.singleton c
  | .string s => s
  | v => v.displayNested

def render : Value → String
  | .unit => ""
  | .string s => s
  | .map [] => ""
  | v => v.display

end Value

/-! ## Literals -/

mutual

/-- The script expression that denotes a JSON value. -/
def literal : Json → String
  | .null => "()"
  | .bool b => if b then "true" else "false"
  | .integer i => if fitsInt i then toString i else Decimal.scripted.write (Float.ofInt i)
  | .float x => Decimal.scripted.write x
  | .string s => Text.literal s
  | .array items => "[" ++ String.intercalate ", " (literalItems items) ++ "]"
  | .object fields => "#\x7b" ++ String.intercalate ", " (literalFields fields) ++ "\x7d"

def literalItems : List Json → List String
  | [] => []
  | v :: rest => literal v :: literalItems rest

def literalFields : List (String × Json) → List String
  | [] => []
  | (n, v) :: rest => (Text.literal n ++ ": " ++ literal v) :: literalFields rest

end

/-- Whether a name can be bound as a plain variable. -/
def isIdentifier (name : String) : Bool :=
  match name.toList with
  | [] => false
  | c :: r =>
    (c.isAlpha || c = '_') && r.all (fun d => d.isAlphanum || d = '_') && !(c :: r == ['_'])

end Stencil.Script
