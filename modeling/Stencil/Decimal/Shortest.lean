import Stencil.Decimal.Binary

/-!
# The shortest decimal that reads back

A double stands for every real number that rounds to it.  Among the decimals in that interval the
ones with the fewest digits are looked for, on grids of 1, 2, … 17 digits; on the first grid with a
hit the nearer of the two neighbours is taken.
-/

namespace Stencil.Decimal

structure Scientific where
  digits : Nat
  exponent : Int
  deriving DecidableEq, Repr

structure Quotient where
  num : Nat
  den : Nat

def Quotient.ofBinary (m : Nat) (q : Int) : Quotient :=
  if 0 ≤ q then ⟨m * Nat.pow 2 q.natAbs, 1⟩ else ⟨m, Nat.pow 2 q.natAbs⟩

def Quotient.scaleDown (x : Quotient) (k : Int) : Quotient :=
  if 0 ≤ k then ⟨x.num, x.den * Nat.pow 10 k.natAbs⟩ else ⟨x.num * Nat.pow 10 k.natAbs, x.den⟩

def digitCount (n : Nat) : Nat := (Nat.toDigits 10 n).length

def Quotient.magnitude (x : Quotient) : Int :=
  let guess : Int := (digitCount x.num : Int) - digitCount x.den
  let y := x.scaleDown guess
  if y.den ≤ y.num then guess else guess - 1

/--
The reals that round to `m · 2 ^ q`, as bounds in quarters of `2 ^ q`.  Below a power of two the
doubles lie twice as dense.  The ends belong to it iff `m` is even.
-/
def roundingBounds (m : Nat) (q : Int) : Nat × Nat :=
  (if m = hiddenBit ∧ -1074 < q then 4 * m - 1 else 4 * m - 2, 4 * m + 2)

def readsBack (m : Nat) (q : Int) (d : Nat) (k : Int) : Bool :=
  let (low, high) := roundingBounds m q
  let unit := (Quotient.ofBinary 1 (q - 2)).scaleDown k
  let left := low * unit.num
  let right := high * unit.num
  let here := d * unit.den
  if m % 2 = 0 then left ≤ here && here ≤ right else left < here && here < right

/-- The neighbour of `m · 2 ^ q` on the grid of multiples of `10 ^ k` that reads back, if any. -/
def onGrid? (m : Nat) (q k : Int) : Option Scientific :=
  let x := (Quotient.ofBinary m q).scaleDown k
  let d := x.num / x.den
  let lower := d ≠ 0 && readsBack m q d k
  let upper := readsBack m q (d + 1) k
  let nearer : Nat := if 2 * (x.num - d * x.den) < x.den then d else d + 1
  if lower && upper then some ⟨nearer, k⟩
  else if lower then some ⟨d, k⟩
  else if upper then some ⟨d + 1, k⟩
  else none

/-- The shortest decimal that rounds to the positive double `m · 2 ^ q`. -/
def shortest (m : Nat) (q : Int) : Scientific :=
  let top := (Quotient.ofBinary m q).magnitude
  ((List.range 17).findSome? fun (n : Nat) => onGrid? m q (top - (n : Int))).getD ⟨m, 0⟩

end Stencil.Decimal
