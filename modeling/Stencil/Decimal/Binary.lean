/-!
# Binary floating point numbers, taken apart

A finite double is a sign, a whole number `m` and a power of two: its absolute value is `m · 2 ^ q`.
-/

namespace Stencil.Decimal

inductive Parts where
  | nan
  | infinite (negative : Bool)
  /-- The absolute value is `mantissa · 2 ^ exponent`. -/
  | finite (negative : Bool) (mantissa : Nat) (exponent : Int)
  deriving DecidableEq, Repr

def hiddenBit : Nat := Nat.pow 2 52

def signBit (bits : Nat) : Bool := bits / Nat.pow 2 63 % 2 == 1

def Parts.ofBits (bits : Nat) : Parts :=
  let negative := signBit bits
  let field : Nat := bits / hiddenBit % 2048
  let fraction := bits % hiddenBit
  if field = 2047 then if fraction = 0 then .infinite negative else .nan
  else if field = 0 then .finite negative fraction (-1074)
  else .finite negative (hiddenBit + fraction) ((field : Int) - 1075)

def parts (x : Float) : Parts := Parts.ofBits x.toBits.toNat

/-- The sign bit of a double; that of zero and of a number that is none counts too. -/
def isNegative (x : Float) : Bool := signBit x.toBits.toNat

def isWhole (x : Float) : Bool :=
  match parts x with
  | .finite _ m q => if 0 ≤ q then true else m % Nat.pow 2 q.natAbs == 0
  | _ => false

def isFinite (x : Float) : Bool :=
  match parts x with
  | .finite .. => true
  | _ => false

/-- The whole part of a finite double, rounded toward zero. -/
def truncate? (x : Float) : Option Int :=
  match parts x with
  | .finite negative m q =>
    let whole : Nat := if 0 ≤ q then m * Nat.pow 2 q.natAbs else m / Nat.pow 2 q.natAbs
    some (if negative then -(whole : Int) else whole)
  | _ => none

end Stencil.Decimal
