import Stencil.Decimal.Shortest

/-!
# Decimal text of doubles

How the shortest digits of a double are laid out: all in positional notation, or with an exponent
where the number is large or small.  A layout is a record of decisions; the three layouts that the
script language and its documents use are at the end.
-/

namespace Stencil.Decimal

def digitsOf (n : Nat) : List Char := Nat.toDigits 10 n

def Scientific.normalize (s : Scientific) : Scientific :=
  let ds := digitsOf s.digits
  let zeros := (ds.reverse.takeWhile (· = '0')).length
  if s.digits = 0 then s else ⟨s.digits / Nat.pow 10 zeros, s.exponent + zeros⟩

def Scientific.magnitude (s : Scientific) : Int := s.exponent + (digitsOf s.digits).length - 1

/-- Positional notation; a whole number gets `fraction` after its last digit. -/
def positional (s : Scientific) (fraction : List Char) : List Char :=
  let ds := digitsOf s.digits
  if 0 ≤ s.exponent then ds ++ List.replicate s.exponent.natAbs '0' ++ fraction
  else
    let places := s.exponent.natAbs
    if places < ds.length then
      ds.take (ds.length - places) ++ '.' :: ds.drop (ds.length - places)
    else '0' :: '.' :: (List.replicate (places - ds.length) '0' ++ ds)

def withExponent (s : Scientific) : List Char :=
  let tail := 'e' :: (toString s.magnitude).toList
  match digitsOf s.digits with
  | [] => tail
  | [d] => d :: tail
  | d :: ds => d :: '.' :: (ds ++ tail)

structure Layout where
  exponential : Float → Scientific → Bool
  wholeExact : Bool
  fraction : List Char
  zero : List Char
  signedZero : Bool

def Layout.write (layout : Layout) (x : Float) : String :=
  match parts x with
  | .nan => "NaN"
  | .infinite negative => if negative then "-inf" else "inf"
  | .finite negative m q =>
    let sign := if negative then ['-'] else []
    if m = 0 then
      String.ofList (if layout.signedZero then sign ++ layout.zero else layout.zero)
    else
      let s := (shortest m q).normalize
      String.ofList (sign ++
        if layout.wholeExact && isWhole x then
          positional ⟨(Quotient.ofBinary m q).num / (Quotient.ofBinary m q).den, 0⟩ layout.fraction
        else if layout.exponential x s then withExponent s
        else positional s layout.fraction)

/--
A value that stands by itself: an exponent above 10¹³ and below 10⁻¹³, both taken at single
precision; zero without a sign.
-/
def plain : Layout where
  exponential x _ := x.abs > 9999999827968.0 || x.abs < 9.9999998245167e-14
  wholeExact := false
  fraction := ['.', '0']
  zero := ['0', '.', '0']
  signedZero := false

/-- A value inside a container: an exponent from 10¹⁶ up and below 10⁻⁴. -/
def nested : Layout where
  exponential _ s := 16 ≤ s.magnitude || s.magnitude < -4
  wholeExact := false
  fraction := ['.', '0']
  zero := ['0', '.', '0']
  signedZero := true

/-- A value in a script: whole numbers with all their digits, others as inside a container. -/
def scripted : Layout where
  exponential := nested.exponential
  wholeExact := true
  fraction := ['.', '0']
  zero := ['0', '.', '0']
  signedZero := true

end Stencil.Decimal
