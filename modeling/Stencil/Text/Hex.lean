/-!
# Hexadecimal digits
-/

namespace Stencil.Text

def hexDigit (n : Nat) : Char :=
  if n < 10 then Char.ofNat (48 + n) else Char.ofNat (87 + n)

def upperHexDigit (n : Nat) : Char :=
  if n < 10 then Char.ofNat (48 + n) else Char.ofNat (55 + n)

def hexValue? (c : Char) : Option Nat :=
  let n := c.toNat
  if 48 ≤ n ∧ n ≤ 57 then some (n - 48)
  else if 97 ≤ n ∧ n ≤ 102 then some (n - 87)
  else if 65 ≤ n ∧ n ≤ 70 then some (n - 55)
  else none

/-- The last `width` hexadecimal digits of `n`, by the digit table `digit`. -/
def hexDigits (digit : Nat → Char) : Nat → Nat → List Char
  | 0, _ => []
  | width + 1, n => hexDigits digit width (n / 16) ++ [digit (n % 16)]

def hexNumber? (cs : List Char) : Option Nat :=
  cs.foldl (fun acc c => do return 16 * (← acc) + (← hexValue? c)) (some 0)

end Stencil.Text
