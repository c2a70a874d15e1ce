import Stencil.Decimal.Shortest

/-!
# Reading decimals

The double nearest to a decimal number, written with digits, perhaps a point and perhaps an
exponent.
-/

namespace Stencil.Decimal

def natOfDigits (cs : List Char) : Nat := cs.foldl (fun n c => n * 10 + (c.toNat - 48)) 0

/--
The double nearest to `digits · 10 ^ exponent`.  Far outside of the range of doubles it is infinite
or zero, and no power of ten needs to be computed.
-/
def nearest (digits : Nat) (exponent : Int) : Float :=
  let top := exponent + (digitCount digits : Int)
  if digits = 0 then 0.0
  else if 310 < top then 1.0 / 0.0
  else if top < -330 then 0.0
  else Float.ofScientific digits (exponent < 0) exponent.natAbs

def exponent? : List Char → Option Int
  | [] => some 0
  | c :: r =>
    if c = 'e' || c = 'E' then
      let (negative, ds) := match r with
        | '-' :: r => (true, r)
        | '+' :: r => (false, r)
        | r => (false, r)
      if ds.isEmpty || !ds.all Char.isDigit then none
      else
        let n : Nat := ds.foldl (fun n c => min (n * 10 + (c.toNat - 48)) 1000000) 0
        some (if negative then -(n : Int) else (n : Int))
    else none

def readUnsigned? (cs : List Char) : Option Float := do
  let whole := cs.takeWhile Char.isDigit
  let (fraction, rest) := match cs.dropWhile Char.isDigit with
    | '.' :: r => (r.takeWhile Char.isDigit, r.dropWhile Char.isDigit)
    | r => ([], r)
  if whole.isEmpty && fraction.isEmpty then none
  else
    let e ← exponent? rest
    return nearest (natOfDigits (whole ++ fraction)) (e - (fraction.length : Int))

def read? : List Char → Option Float
  | '-' :: r => (readUnsigned? r).map (- ·)
  | '+' :: r => readUnsigned? r
  | r => readUnsigned? r

end Stencil.Decimal
