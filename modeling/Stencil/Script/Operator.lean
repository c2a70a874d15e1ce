import Stencil.Script.Trouble

/-!
# Operators

The operators on values.  Whole numbers are computed exactly and have to fit 64 bits; where one
operand is a float, the other becomes one.  Values of different kinds are never equal and never in
order.
-/

namespace Stencil.Script

/-- What an operator gives; nothing if it is not defined for such operands. -/
abbrev Applied := Option (Except Trouble Value)

namespace Operator

def checked (i : Int) (message : String) : Except Trouble Value :=
  if fitsInt i then .ok (.int i) else .error (.arithmetic message)

def shown (a : Int) (op : String) (b : Int) : String :=
  toString a ++ " " ++ op ++ " " ++ toString b

/-- The remainder of two doubles, exact and with the sign of the first. -/
def remainder (x y : Float) : Float :=
  match Decimal.parts x, Decimal.parts y with
  | .finite _ m q, .finite _ n r =>
    if n = 0 then 0.0 / 0.0
    else if m = 0 then x
    else
      let base := min q r
      let a := m * Nat.pow 2 (q - base).toNat
      let b := n * Nat.pow 2 (r - base).toNat
      let rest := a % b
      let value := (Float.ofNat rest).scaleB base
      if Decimal.isNegative x then -value else value
  | .finite .., .infinite _ => x
  | _, _ => 0.0 / 0.0

def power (a b : Int) : Except Trouble Value :=
  let overflow := "Exponential overflow: " ++ shown a "**" b
  if b < 0 then .error (.arithmetic ("Integer raised to a negative power: " ++ shown a "**" b))
  else if a = 0 || a = 1 then .ok (.int (if b = 0 then 1 else a))
  else if a = -1 then .ok (.int (if b % 2 = 0 then 1 else -1))
  else if 64 ≤ b then .error (.arithmetic overflow)
  else checked (Int.pow a b.toNat) overflow

/-- Shifts bits to the left, or to the right by a negative amount. -/
def shift (a amount : Int) : Int :=
  if 64 ≤ amount then 0
  else if 0 ≤ amount then Word.ofBits (Word.bits a * Nat.pow 2 amount.toNat)
  else if amount ≤ -64 then if a < 0 then -1 else 0
  else a.fdiv (Int.pow 2 (-amount).toNat)

def onInts (op : String) (a b : Int) : Applied :=
  match op with
  | "+" => some (checked (a + b) ("Addition overflow: " ++ shown a "+" b))
  | "-" => some (checked (a - b) ("Subtraction overflow: " ++ shown a "-" b))
  | "*" => some (checked (a * b) ("Multiplication overflow: " ++ shown a "*" b))
  | "/" =>
    some (if b = 0 then .error (.arithmetic ("Division by zero: " ++ shown a "/" b))
      else checked (a.tdiv b) ("Division overflow: " ++ shown a "/" b))
  | "%" =>
    some (if b = 0 then .error (.arithmetic ("Modulo division by zero: " ++ shown a "%" b))
      else if a = minInt && b = -1 then
        .error (.arithmetic ("Modulo division overflow: " ++ shown a "%" b))
      else .ok (.int (a.tmod b)))
  | "**" => some (power a b)
  | "<<" => some (.ok (.int (shift a b)))
  | ">>" => some (.ok (.int (shift a (-b))))
  | "&" => some (.ok (.int (Word.ofBits (Word.bits a &&& Word.bits b))))
  | "|" => some (.ok (.int (Word.ofBits (Word.bits a ||| Word.bits b))))
  | "^" => some (.ok (.int (Word.ofBits (Word.bits a ^^^ Word.bits b))))
  | ".." => some (.ok (.range a b false))
  | "..=" => some (.ok (.range a b true))
  | _ => none

def onFloats (op : String) (a b : Float) : Applied :=
  match op with
  | "+" => some (.ok (.float (a + b)))
  | "-" => some (.ok (.float (a - b)))
  | "*" => some (.ok (.float (a * b)))
  | "/" => some (.ok (.float (a / b)))
  | "%" => some (.ok (.float (remainder a b)))
  | "**" => some (.ok (.float (a ^ b)))
  | _ => none

def compared (op : String) (equal less : Bool) : Applied :=
  match op with
  | "==" => some (.ok (.bool equal))
  | "!=" => some (.ok (.bool !equal))
  | "<" => some (.ok (.bool less))
  | "<=" => some (.ok (.bool (less || equal)))
  | ">" => some (.ok (.bool (!less && !equal)))
  | ">=" => some (.ok (.bool !less))
  | _ => none

/-- Comparison of two floats; one that is undefined is neither equal nor in order. -/
def comparedFloats (op : String) (a b : Float) : Applied :=
  match op with
  | "==" => some (.ok (.bool (a == b)))
  | "!=" => some (.ok (.bool (a != b)))
  | "<" => some (.ok (.bool (a < b)))
  | "<=" => some (.ok (.bool (a ≤ b)))
  | ">" => some (.ok (.bool (b < a)))
  | ">=" => some (.ok (.bool (b ≤ a)))
  | _ => none

def isComparison (op : String) : Bool := ["==", "!=", "<", "<=", ">", ">="].contains op

mutual

def equal : Value → Value → Bool
  | .unit, .unit => true
  | .bool a, .bool b => a == b
  | .int a, .int b => a == b
  | .int a, .float b => Float.ofInt a == b
  | .float a, .int b => a == Float.ofInt b
  | .float a, .float b => a == b
  | .char a, .char b => a == b
  | .string a, .string b => a == b
  | .char a, .string b => String.singleton a == b
  | .string a, .char b => a == String.singleton b
  | .array a, .array b => equalItems a b
  | .map a, .map b => equalFields a b
  | .range a b i, .range c d j => a == c && b == d && i == j
  | _, _ => false

def equalItems : List Value → List Value → Bool
  | [], [] => true
  | a :: as, b :: bs => equal a b && equalItems as bs
  | _, _ => false

def equalFields : List (String × Value) → List (String × Value) → Bool
  | [], [] => true
  | (m, a) :: as, (n, b) :: bs => m == n && equal a b && equalFields as bs
  | _, _ => false

end

/-- Whether values of a kind can be tested for equality but have no order. -/
def unordered : Value → Value → Bool
  | .array _, .array _ | .map _, .map _ | .range .., .range .. | .pointer .., .pointer .. => true
  | _, _ => false

def without (text other : String) : String :=
  if other = "" then text else String.join (text.splitOn other)

def binary (op : String) (a b : Value) : Applied :=
  match a, b with
  | .int x, .int y =>
    if isComparison op then compared op (x == y) (x < y) else onInts op x y
  | .float x, .float y => if isComparison op then comparedFloats op x y else onFloats op x y
  | .int x, .float y =>
    if isComparison op then comparedFloats op (Float.ofInt x) y else onFloats op (Float.ofInt x) y
  | .float x, .int y =>
    if isComparison op then comparedFloats op x (Float.ofInt y) else onFloats op x (Float.ofInt y)
  | .bool x, .bool y =>
    match op with
    | "&" => some (.ok (.bool (x && y)))
    | "|" => some (.ok (.bool (x || y)))
    | "^" => some (.ok (.bool (x != y)))
    | _ => compared op (x == y) (!x && y)
  | .string x, .string y =>
    if op = "+" then some (.ok (.string (x ++ y)))
    else if op = "-" then some (.ok (.string (without x y)))
    else compared op (x == y) (x < y)
  | .char x, .char y =>
    if op = "+" then some (.ok (.string (String.ofList [x, y]))) else compared op (x == y) (x < y)
  | .string x, .char y =>
    if op = "+" then some (.ok (.string (x.push y)))
    else if op = "-" then some (.ok (.string (without x (String.singleton y))))
    else compared op (x == String.singleton y) (x < String.singleton y)
  | .char x, .string y =>
    if op = "+" then some (.ok (.string (String.singleton x ++ y)))
    else compared op (String.singleton x == y) (String.singleton x < y)
  | .unit, .unit => if isComparison op then compared op true false else none
  | .string x, v =>
    if op = "+" then some (.ok (.string (x ++ v.display)))
    else if isComparison op then some (.ok (.bool (op = "!="))) else none
  | v, .string y =>
    if op = "+" then some (.ok (.string (v.display ++ y)))
    else if isComparison op then some (.ok (.bool (op = "!="))) else none
  | .array x, .array y =>
    match op with
    | "+" => some (.ok (.array (x ++ y)))
    | "==" => some (.ok (.bool (equalItems x y)))
    | "!=" => some (.ok (.bool !(equalItems x y)))
    | _ => none
  | .map x, .map y =>
    match op with
    | "+" => some (.ok (.map (y.foldl (fun fields (n, v) => Fields.insert n v fields) x)))
    | "==" => some (.ok (.bool (equalFields x y)))
    | "!=" => some (.ok (.bool !(equalFields x y)))
    | _ => none
  | a, b =>
    if isComparison op then
      if unordered a b then
        if op = "==" then some (.ok (.bool (equal a b)))
        else if op = "!=" then some (.ok (.bool !(equal a b)))
        else none
      else some (.ok (.bool (op = "!=")))
    else none

def unary (op : String) (v : Value) : Applied :=
  match op, v with
  | "-", .int i => some (checked (-i) "integer overflow")
  | "-", .float x => some (.ok (.float (-x)))
  | "+", .int i => some (.ok (.int i))
  | "+", .float x => some (.ok (.float x))
  | "!", .bool b => some (.ok (.bool !b))
  | _, _ => none

def contains (container item : Value) : Applied :=
  match container, item with
  | .array items, v => some (.ok (.bool (items.any (equal · v))))
  | .string s, .string t => some (.ok (.bool (1 < (s.splitOn t).length || t = "")))
  | .string s, .char c => some (.ok (.bool (s.toList.contains c)))
  | .map fields, .string name => some (.ok (.bool (Fields.get? name fields).isSome))
  | .range a b inclusive, .int i =>
    some (.ok (.bool (a ≤ i && (if inclusive then i ≤ b else i < b))))
  | _, _ => none

def apply (op : String) (args : List Value) : Applied :=
  match args with
  | [v] => unary op v
  | [a, b] => if op = "contains" then contains a b else binary op a b
  | _ => none

/-- A combined assignment: the operator itself, except that arrays take up single values. -/
def combined (op : String) (a b : Value) : Applied :=
  match op, a, b with
  | "+", .array x, .array y => some (.ok (.array (x ++ y)))
  | "+", .array x, v => some (.ok (.array (x ++ [v])))
  | _, _, _ => binary op a b

end Operator

end Stencil.Script
