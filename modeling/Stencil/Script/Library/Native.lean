import Stencil.Script.Trouble

/-!
# Native functions

What a function of the language does: it gives a value, perhaps together with what becomes of its
first argument, or it fails.  A function of the second kind may not be called on a constant.
-/

namespace Stencil.Script

inductive Native where
  | value (result : Value)
  | change (result receiver : Value)
  | fault (trouble : Trouble)
  deriving Inhabited

/-- Functions by name and arguments; nothing if there is none for such arguments. -/
abbrev Natives := String → List Value → Option Native

namespace Native

def bool (b : Bool) : Option Native := some (.value (.bool b))
def int (i : Int) : Option Native := some (.value (.int i))
def float (x : Float) : Option Native := some (.value (.float x))
def text (cs : List Char) : Option Native := some (.value (.string (String.ofList cs)))
def array (items : List Value) : Option Native := some (.value (.array items))

def option (v : Option Value) : Option Native := some (.value (v.getD .unit))

end Native

/-! ## Places in a row of items -/

/-- The place that an index means among `count` items; a negative index counts from the end. -/
def place? (count : Nat) (index : Int) : Option Nat :=
  let i := if index < 0 then index + count else index
  if 0 ≤ i && i < count then some i.toNat else none

/--
Where a piece begins and how long it is, given its first index and its length.  A first index before
the first item means the first item, and what lies behind the last one is cut off.
-/
def piece (count : Nat) (start length : Int) : Nat × Nat :=
  let first : Nat := (if start < 0 then start + count else start).toNat
  if count ≤ first then (count, 0) else (first, min length.toNat (count - first))

def rangePiece (count : Nat) (first last : Int) (inclusive : Bool) : Nat × Nat :=
  let first := max first 0
  let last := max last 0
  piece count first (last - first + if inclusive then 1 else 0)

def cut {α : Type} (items : List α) (p : Nat × Nat) : List α × List α :=
  ((items.drop p.1).take p.2, items.take p.1 ++ items.drop (p.1 + p.2))

end Stencil.Script
