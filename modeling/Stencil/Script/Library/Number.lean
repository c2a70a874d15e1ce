import Stencil.Script.Library.Native
import Stencil.Script.Operator

/-!
# Functions on numbers
-/

namespace Stencil.Script.Library

/-- The digits of the 64 bits of a whole number, `width` bits to a digit, without leading zeros. -/
def bitDigits (width : Nat) (i : Int) : List Char := Nat.toDigits (Nat.pow 2 width) (Word.bits i)

def toInt (x : Float) : Native :=
  match Decimal.truncate? x with
  | some i =>
    if fitsInt i then .value (.int i)
    else .fault (.arithmetic ("Integer overflow: to_int(" ++ (Value.float x).display ++ ")"))
  | none => .fault (.arithmetic ("Integer overflow: to_int(" ++ (Value.float x).display ++ ")"))

def onInt (name : String) (i : Int) (rest : List Value) : Option Native :=
  match name, rest with
  | "abs", [] =>
    if i = minInt then some (.fault (.arithmetic ("Negation overflow: " ++ toString i)))
    else Native.int i.natAbs
  | "sign", [] => Native.int i.sign
  | "is_zero", [] => Native.bool (i = 0)
  | "is_odd", [] => Native.bool (i % 2 ≠ 0)
  | "is_even", [] => Native.bool (i % 2 = 0)
  | "to_float", [] => Native.float (Float.ofInt i)
  | "to_hex", [] => Native.text (bitDigits 4 i)
  | "to_octal", [] => Native.text (bitDigits 3 i)
  | "to_binary", [] => Native.text (bitDigits 1 i)
  | "to_char", [] => (do
      let n ← if 0 ≤ i then some i.toNat else none
      if n.isValidChar then some (.value (.char (Char.ofNat n))) else none)
  | _, _ => none

def onFloat (name : String) (x : Float) (rest : List Value) : Option Native :=
  match name, rest with
  | "abs", [] => Native.float x.abs
  | "sign", [] => Native.int (if x == 0 then 0 else if x < 0 then -1 else 1)
  | "is_zero", [] => Native.bool (x == 0)
  | "is_nan", [] => Native.bool x.isNaN
  | "is_finite", [] => Native.bool (Decimal.isFinite x)
  | "is_infinite", [] => Native.bool x.isInf
  | "floor", [] => Native.float x.floor
  | "ceiling", [] => Native.float x.ceil
  | "round", [] => Native.float x.round
  | "int", [] => Native.float (if x < 0 then x.ceil else x.floor)
  | "fraction", [] => Native.float (x - (if x < 0 then x.ceil else x.floor))
  | "sqrt", [] => Native.float x.sqrt
  | "exp", [] => Native.float x.exp
  | "ln", [] => Native.float x.log
  | "log", [] => Native.float x.log10
  | "sin", [] => Native.float x.sin
  | "cos", [] => Native.float x.cos
  | "tan", [] => Native.float x.tan
  | "to_int", [] => some (toInt x)
  | "to_float", [] => Native.float x
  | _, _ => none

def extreme (greater : Bool) (a b : Value) : Option Native :=
  match a, b with
  | .int x, .int y => Native.int (if greater then max x y else min x y)
  | .float x, .float y => Native.float (if (x < y) == greater then y else x)
  | .int x, .float y => Native.float (if (Float.ofInt x < y) == greater then y else Float.ofInt x)
  | .float x, .int y => Native.float (if (x < Float.ofInt y) == greater then Float.ofInt y else x)
  | .string x, .string y => some (.value (.string (if (x < y) == greater then y else x)))
  | .char x, .char y => some (.value (.char (if (x < y) == greater then y else x)))
  | _, _ => none

def onNumber (name : String) : List Value → Option Native
  | [] =>
    match name with
    | "PI" => Native.float 3.141592653589793
    | "E" => Native.float 2.718281828459045
    | _ => none
  | a :: rest =>
    match name, rest with
    | "max", [b] => extreme true a b
    | "min", [b] => extreme false a b
    | _, _ =>
      match a with
      | .int i => onInt name i rest
      | .float x => onFloat name x rest
      | _ => none

end Stencil.Script.Library
