import Stencil.Json.Basic
import Stencil.Text.Hex

/-!
# Reading JSON

A strict reader: one value with white space around it, and nothing else.  Numbers without point and
exponent are whole as long as they fit 64 bits.
-/

namespace Stencil.Json

/-! ## Numbers -/

def isDigit (c : Char) : Bool := '0' ≤ c && c ≤ '9'

def digitValue (c : Char) : Nat := c.toNat - 48

def significandLimit : Nat := 18446744073709551615

/--
Reads digits into a significand as long as it fits 64 bits.  The result holds the significand, the
count of digits used and the count of digits left out.
-/
def significand (digits : List Char) (start : Nat) : Nat × Nat × Nat :=
  let rec go : List Char → Nat → Nat → Nat × Nat × Nat
    | [], value, used => (value, used, 0)
    | d :: ds, value, used =>
      let next := value * 10 + digitValue d
      if next ≤ significandLimit then go ds next (used + 1)
      else (value, used, ds.length + 1)
  go digits start 0

def powerOfTen (n : Nat) : Float := Float.ofScientific 1 false n

/--
A significand times a power of ten: the significand is rounded to a double and scaled in steps of
at most `10 ^ 308`, each rounded.  `none` where the result is infinite.
-/
def scaled? : Nat → Float → Int → Option Float
  | 0, x, _ => some x
  | fuel + 1, x, exponent =>
    if exponent.natAbs ≤ 308 then
      if 0 ≤ exponent then
        let y := x * powerOfTen exponent.natAbs
        if y.isInf then none else some y
      else some (x / powerOfTen exponent.natAbs)
    else if x == 0.0 then some x
    else if 0 ≤ exponent then none
    else scaled? fuel (x / powerOfTen 308) (exponent + 308)

/-- The largest exponent that is read; a larger one means zero or infinity. -/
def exponentLimit : Nat := 2147483647

structure Literal where
  negative : Bool
  whole : List Char
  fraction : Option (List Char)
  exponent : Option (Bool × List Char)

def Literal.value? (n : Literal) : Option Json :=
  let (whole, _, dropped) := significand n.whole 0
  let sign (x : Float) : Json := .float (if n.negative then -x else x)
  if n.fraction.isNone && n.exponent.isNone && dropped = 0 then
    if !n.negative then some (.integer whole)
    else if whole = 0 || 9223372036854775808 < whole then some (.float (-(Float.ofNat whole)))
    else some (.integer (-(whole : Int)))
  else
    let (digits, used, _) :=
      match n.fraction with
      | some ds => significand ds whole
      | none => (whole, 0, 0)
    let start : Int := (dropped : Int) - used
    match n.exponent with
    | none => (scaled? 8 (Float.ofNat digits) start).map sign
    | some (down, ds) =>
      let e := ds.foldl (fun e d => min (e * 10 + digitValue d) (exponentLimit + 1)) 0
      if exponentLimit < e then
        if digits ≠ 0 && !down then none else some (sign 0.0)
      else
        (scaled? 8 (Float.ofNat digits) (if down then start - e else start + e)).map sign

def spanDigits (cs : List Char) : List Char × List Char := cs.span isDigit

/-- Reads a number; a whole part of several digits does not begin with `0`. -/
def number? (cs : List Char) : Option (Json × List Char) := do
  let (negative, cs) := match cs with
    | '-' :: r => (true, r)
    | r => (false, r)
  let (whole, cs) := spanDigits cs
  if whole.isEmpty || (whole.head? = some '0' && 1 < whole.length) then none
  else
    let (fraction, cs) ← match cs with
      | '.' :: r =>
        let (ds, r) := spanDigits r
        if ds.isEmpty then none else some (some ds, r)
      | r => some (none, r)
    let (exponent, cs) ← match cs with
      | c :: r =>
        if c = 'e' || c = 'E' then
          let (down, r) := match r with
            | '+' :: r => (false, r)
            | '-' :: r => (true, r)
            | r => (false, r)
          let (ds, r) := spanDigits r
          if ds.isEmpty then none else some (some (down, ds), r)
        else some (none, c :: r)
      | [] => some (none, [])
    let value ← Literal.value? ⟨negative, whole, fraction, exponent⟩
    return (value, cs)

/-! ## Strings -/

def fourHex? : List Char → Option (Nat × List Char)
  | a :: b :: c :: d :: r => (Text.hexNumber? [a, b, c, d]).map (·, r)
  | _ => none

def stringTail? : Nat → List Char → List Char → Option (String × List Char)
  | 0, _, _ => none
  | fuel + 1, acc, cs =>
    match cs with
    | '"' :: r => some (String.ofList acc.reverse, r)
    | '\\' :: 'u' :: r => do
      let (n, r) ← fourHex? r
      if 0xD800 ≤ n && n < 0xDC00 then
        match r with
        | '\\' :: 'u' :: r =>
          let (m, r) ← fourHex? r
          if 0xDC00 ≤ m && m < 0xE000 then
            stringTail? fuel
              (Char.ofNat (0x10000 + (n - 0xD800) * 0x400 + (m - 0xDC00)) :: acc) r
          else none
        | _ => none
      else if 0xDC00 ≤ n && n < 0xE000 then none
      else stringTail? fuel (Char.ofNat n :: acc) r
    | '\\' :: c :: r =>
      match c with
      | '"' => stringTail? fuel ('"' :: acc) r
      | '\\' => stringTail? fuel ('\\' :: acc) r
      | '/' => stringTail? fuel ('/' :: acc) r
      | 'b' => stringTail? fuel ('\x08' :: acc) r
      | 'f' => stringTail? fuel ('\x0c' :: acc) r
      | 'n' => stringTail? fuel ('\n' :: acc) r
      | 'r' => stringTail? fuel ('\r' :: acc) r
      | 't' => stringTail? fuel ('\t' :: acc) r
      | _ => none
    | c :: r => if c.toNat < 0x20 then none else stringTail? fuel (c :: acc) r
    | [] => none

/-! ## Values -/

def isSpace (c : Char) : Bool := c = ' ' || c = '\n' || c = '\t' || c = '\r'

def skipSpace (cs : List Char) : List Char := cs.dropWhile isSpace

def keyword? : List Char → List Char → Option (List Char)
  | [], cs => some cs
  | k :: ks, c :: cs => if k = c then keyword? ks cs else none
  | _ :: _, [] => none

mutual

/-- Reads a value in which `depth` more arrays and objects may be nested. -/
def value? : Nat → Nat → List Char → Option (Json × List Char)
  | 0, _, _ => none
  | fuel + 1, depth, cs =>
    match skipSpace cs with
    | '"' :: r => (stringTail? (r.length + 1) [] r).map fun (s, r) => (.string s, r)
    | '[' :: r =>
      if depth ≤ 1 then none
      else
        match skipSpace r with
        | ']' :: r => some (.array [], r)
        | r => (items? fuel (depth - 1) [] r).map fun (items, r) => (.array items, r)
    | '\x7b' :: r =>
      if depth ≤ 1 then none
      else
        match skipSpace r with
        | '\x7d' :: r => some (.object [], r)
        | r => (members? fuel (depth - 1) [] r).map fun (fields, r) => (.object fields, r)
    | 'n' :: r => (keyword? ['u', 'l', 'l'] r).map (.null, ·)
    | 't' :: r => (keyword? ['r', 'u', 'e'] r).map (.bool true, ·)
    | 'f' :: r => (keyword? ['a', 'l', 's', 'e'] r).map (.bool false, ·)
    | r => number? r

def items? : Nat → Nat → List Json → List Char → Option (List Json × List Char)
  | 0, _, _, _ => none
  | fuel + 1, depth, acc, cs => do
    let (v, r) ← value? fuel depth cs
    match skipSpace r with
    | ',' :: r => items? fuel depth (v :: acc) r
    | ']' :: r => some ((v :: acc).reverse, r)
    | _ => none

def members? : Nat → Nat → Fields Json → List Char → Option (Fields Json × List Char)
  | 0, _, _, _ => none
  | fuel + 1, depth, acc, cs =>
    match skipSpace cs with
    | '"' :: r => do
      let (name, r) ← stringTail? (r.length + 1) [] r
      match skipSpace r with
      | ':' :: r =>
        let (v, r) ← value? fuel depth r
        match skipSpace r with
        | ',' :: r => members? fuel depth (acc.insert name v) r
        | '\x7d' :: r => some (acc.insert name v, r)
        | _ => none
      | _ => none
    | _ => none

end

/-- How deep arrays and objects may be nested, counting the value itself. -/
def depthLimit : Nat := 128

def read? (text : String) : Option Json := do
  let cs := text.toList
  let (v, r) ← value? (2 * cs.length + 2) depthLimit cs
  if (skipSpace r).isEmpty then some v else none

end Stencil.Json
