import Stencil.Script.Library.All

/-!
# Parts of values

Reading and writing the properties of a value and what stands at an index of it.  A field that a map
does not have reads as the unit, and writing creates it.
-/

namespace Stencil.Script.Value

def readProperty (v : Value) (name : String) : Except Trouble Value :=
  match v with
  | .map fields => .ok ((Fields.get? name fields).getD .unit)
  | v =>
    match Library.property? name v with
    | some r => .ok r
    | none => .error (.unreadableProperty name v.kind)

def writeProperty (v : Value) (name : String) (part : Value) : Except Trouble Value :=
  match v with
  | .map fields => .ok (.map (Fields.insert name part fields))
  | v => .error (.unwritableProperty name v.kind)

def bitPiece (first last : Int) (inclusive : Bool) : Nat × Nat :=
  rangePiece 64 first last inclusive

def arrayPlace (count : Nat) (index : Value) : Except Trouble Nat :=
  match index with
  | .int i =>
    match place? count i with
    | some k => .ok k
    | none => .error (.arrayBounds i count)
  | v => .error (.mismatch v.kind "i64")

def charPlace (count : Nat) (index : Value) : Except Trouble Nat :=
  match index with
  | .int i =>
    match place? count i with
    | some k => .ok k
    | none => .error (.stringBounds i count)
  | v => .error (.mismatch v.kind "i64")

def readIndex (v index : Value) : Except Trouble Value :=
  match v, index with
  | .array items, _ => do return items.getD (← arrayPlace items.length index) .unit
  | .map fields, .string name => .ok ((Fields.get? name fields).getD .unit)
  | .map _, i => .error (.mismatch i.kind "string")
  | .string s, _ => do return .char (s.toList.getD (← charPlace s.length index) ' ')
  | .int n, .int i =>
    match place? 64 i with
    | some k => .ok (.bool (Word.bits n / Nat.pow 2 k % 2 == 1))
    | none => .error (.bitBounds i)
  | .int n, .range a b inclusive =>
    let (k, count) := bitPiece a b inclusive
    .ok (.int (Word.ofBits (Word.bits n / Nat.pow 2 k % Nat.pow 2 count)))
  | v, i => .error (.unindexable v.kind i.kind)

def writeIndex (v index part : Value) : Except Trouble Value :=
  match v, index with
  | .array items, _ => do return .array (items.set (← arrayPlace items.length index) part)
  | .map fields, .string name => .ok (.map (Fields.insert name part fields))
  | .map _, i => .error (.mismatch i.kind "string")
  | .string s, _ => do
    let k ← charPlace s.length index
    match part with
    | .char c => return .string (String.ofList (s.toList.set k c))
    | p => .error (.mismatch p.kind "char")
  | .int n, .int i =>
    match place? 64 i, part with
    | some k, .bool b =>
      let without := Word.bits n - Word.bits n / Nat.pow 2 k % 2 * Nat.pow 2 k
      .ok (.int (Word.ofBits (without + if b then Nat.pow 2 k else 0)))
    | some _, p => .error (.mismatch p.kind "bool")
    | none, _ => .error (.bitBounds i)
  | .int n, .range a b inclusive =>
    match part with
    | .int p =>
      let (k, count) := bitPiece a b inclusive
      let without := Word.bits n - Word.bits n / Nat.pow 2 k % Nat.pow 2 count * Nat.pow 2 k
      .ok (.int (Word.ofBits (without + Word.bits p % Nat.pow 2 count * Nat.pow 2 k)))
    | p => .error (.mismatch p.kind "i64")
  | v, i => .error (.unindexable v.kind i.kind)

def hasField (v : Value) (name : String) : Bool :=
  match v with
  | .map fields => Fields.has name fields
  | _ => false

/-- The items that a loop over a value goes through; a range has too many to list them. -/
def items? : Value → Option (List Value)
  | .array items => some items
  | .string s => some (s.toList.map .char)
  | _ => none

mutual

/-- Whether a value is exactly a literal: numbers of different kinds are different. -/
def same : Value → Value → Bool
  | .int _, .float _ | .float _, .int _ | .char _, .string _ | .string _, .char _ => false
  | .array a, .array b => sameItems a b
  | .map a, .map b => sameFields a b
  | a, b => Operator.equal a b

def sameItems : List Value → List Value → Bool
  | [], [] => true
  | a :: as, b :: bs => same a b && sameItems as bs
  | _, _ => false

def sameFields : List (String × Value) → List (String × Value) → Bool
  | [], [] => true
  | (m, a) :: as, (n, b) :: bs => m == n && same a b && sameFields as bs
  | _, _ => false

end

def inRange (v : Value) (first last : Int) (inclusive : Bool) : Bool :=
  match v with
  | .int i => first ≤ i && (if inclusive then i ≤ last else i < last)
  | .float x =>
    Float.ofInt first ≤ x && (if inclusive then x ≤ Float.ofInt last else x < Float.ofInt last)
  | _ => false

end Stencil.Script.Value
