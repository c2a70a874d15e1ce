import Stencil.Script.Display
import Stencil.Script.Token

/-!
# Faults of a running script

What can go wrong in a script, and where: at a place of its own, or inside a function that was
called at a place.
-/

namespace Stencil.Script

inductive Trouble where
  | unknownVariable (name : String)
  | unknownFunction (signature : String)
  | unknownModule (path : String)
  | unreadableProperty (name kind : String)
  | unwritableProperty (name kind : String)
  | unindexable (kind index : String)
  | mismatch (actual expected : String)
  | outputMismatch (actual expected : String)
  | notIterable
  | constant (name : String)
  | changesConstant (function : String)
  | unboundReceiver
  | arrayBounds (index : Int) (count : Nat)
  | stringBounds (index : Int) (count : Nat)
  | bitBounds (index : Int)
  | arithmetic (message : String)
  | thrown (value : Value)
  | tooManyOperations
  | stackOverflow
  | unreadable (reason : String)
  deriving Inhabited

namespace Trouble

def thrownMessage (value : Value) : String :=
  let text := value.display
  match value with
  | .unit => "Runtime error"
  | _ => if text = "" then "Runtime error" else "Runtime error: " ++ text

def onlySome (count : Nat) (thing container : String) : String :=
  if count = 0 then container ++ " is empty"
  else if count = 1 then "only 1 " ++ thing ++ " in " ++ container
  else "only " ++ toString count ++ " " ++ thing ++ "s in " ++ container

def message : Trouble → String
  | .unknownVariable name => "Variable not found: " ++ name
  | .unknownFunction signature => "Function not found: " ++ signature
  | .unknownModule path => "Module not found: " ++ path
  | .unreadableProperty name kind =>
    "Unknown property '" ++ name ++ "' - a getter is not registered for type '" ++ kind ++ "'"
  | .unwritableProperty name kind =>
    "Unknown property '" ++ name ++ "' - a setter is not registered for type '" ++ kind ++ "'"
  | .unindexable kind index => "Indexer unavailable: " ++ kind ++ " [" ++ index ++ "]"
  | .mismatch actual expected =>
    "Data type incorrect: " ++ actual ++ " (expecting " ++ expected ++ ")"
  | .outputMismatch actual expected =>
    "Output type incorrect: " ++ actual ++ " (expecting " ++ expected ++ ")"
  | .notIterable => "For loop expects iterable type"
  | .constant name => "Cannot modify constant " ++ name
  | .changesConstant function =>
    "Non-pure method '" ++ function ++ "' cannot be called on constant"
  | .unboundReceiver => "'this' not bound"
  | .arrayBounds index count =>
    "Array index " ++ toString index ++ " out of bounds: " ++ onlySome count "element" "array"
  | .stringBounds index count =>
    "String index " ++ toString index ++ " out of bounds: " ++ onlySome count "character" "string"
  | .bitBounds index =>
    "Bit-field index " ++ toString index ++ " out of bounds: only 64 bits in bit-field"
  | .arithmetic message => message
  | .thrown value => thrownMessage value
  | .tooManyOperations => "Too many operations"
  | .stackOverflow => "Stack overflow"
  | .unreadable reason => "Syntax error: " ++ reason

def kind : Trouble → String
  | .unknownVariable _ => "ErrorVariableNotFound"
  | .unknownFunction _ => "ErrorFunctionNotFound"
  | .unknownModule _ => "ErrorModuleNotFound"
  | .unreadableProperty .. | .unwritableProperty .. => "ErrorDotExpr"
  | .unindexable .. => "ErrorIndexingType"
  | .mismatch .. => "ErrorMismatchDataType"
  | .outputMismatch .. => "ErrorMismatchOutputType"
  | .notIterable => "ErrorFor"
  | .constant _ => "ErrorAssignmentToConstant"
  | .changesConstant _ => "ErrorNonPureMethodCallOnConstant"
  | .unboundReceiver => "ErrorUnboundThis"
  | .arrayBounds .. => "ErrorArrayBounds"
  | .stringBounds .. => "ErrorStringBounds"
  | .bitBounds _ => "ErrorBitFieldBounds"
  | .arithmetic _ => "ErrorArithmetic"
  | .thrown _ => "ErrorRuntime"
  | .tooManyOperations => "ErrorTooManyOperations"
  | .stackOverflow => "ErrorStackOverflow"
  | .unreadable _ => "ErrorParsing"

def details : Trouble → List (String × Value)
  | .unknownVariable name | .constant name => [("variable", .string name)]
  | .unknownFunction signature => [("function", .string signature)]
  | .changesConstant function => [("function", .string function)]
  | .unknownModule path => [("module", .string path)]
  | .unreadableProperty name _ | .unwritableProperty name _ => [("property", .string name)]
  | .unindexable kind index => [("type", .string (kind ++ " [" ++ index ++ "]"))]
  | .mismatch actual expected | .outputMismatch actual expected =>
    [("requested", .string expected), ("actual", .string actual)]
  | .arrayBounds index count | .stringBounds index count =>
    [("length", .int count), ("index", .int index)]
  | .bitBounds index => [("length", .int 64), ("index", .int index)]
  | .notIterable | .unboundReceiver | .arithmetic _ | .thrown _ | .tooManyOperations
  | .stackOverflow | .unreadable _ => []

def catchable : Trouble → Bool
  | .tooManyOperations | .stackOverflow | .unreadable _ => false
  | _ => true

end Trouble

inductive Failure where
  | here (trouble : Trouble) (pos : Option Pos)
  /-- A fault inside the function `function`, which was called at `pos`. -/
  | inCall (function : String) (closure : Bool) (inner : Failure) (pos : Option Pos)
  deriving Inhabited

namespace Failure

/-- The place of a fault; inside a call it is the place of the call. -/
def pos? : Failure → Option Pos
  | .here _ p | .inCall _ _ _ p => p

def located (p : Pos) : Failure → Failure
  | .here t none => .here t (some p)
  | .inCall f c i none => .inCall f c i (some p)
  | f => f

def relocated (p : Option Pos) : Failure → Failure
  | .here t _ => .here t p
  | .inCall f c i _ => .inCall f c i p

def trouble : Failure → Trouble
  | .here t _ => t
  | .inCall _ _ inner _ => inner.trouble

def catchable : Failure → Bool
  | .here t _ => t.catchable
  | .inCall .. => true

def placeText : Option Pos → String
  | some p => " (line " ++ toString p.line ++ ", position " ++ toString p.column ++ ")"
  | none => ""

def message : Failure → String
  | .here t p => t.message ++ placeText p
  | .inCall function closure inner p =>
    inner.message ++
      (if closure then "\nin closure call" else "\nin call to function '" ++ function ++ "'") ++
      placeText p

end Failure

end Stencil.Script
