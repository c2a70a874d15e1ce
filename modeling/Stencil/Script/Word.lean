/-!
# Whole numbers of 64 bits

The whole numbers of the script language have 64 bits, the highest of which is their sign.
-/

namespace Stencil.Script

def minInt : Int := -9223372036854775808
def maxInt : Int := 9223372036854775807

def fitsInt (i : Int) : Bool := minInt ≤ i && i ≤ maxInt

namespace Word

def count : Nat := 18446744073709551616

def bits (a : Int) : Nat := (a % count).toNat

/-- The whole number of 64 bits; bits above them are dropped. -/
def ofBits (n : Nat) : Int :=
  let m : Nat := n % count
  if m ≤ maxInt.toNat then (m : Int) else (m : Int) - count

end Word

end Stencil.Script
