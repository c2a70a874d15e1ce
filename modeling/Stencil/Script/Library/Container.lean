import Stencil.Script.Library.Native
import Stencil.Script.Operator

/-!
# Functions on arrays, maps and ranges

The functions that take no function of the script.  Negative places count from the end.
-/

namespace Stencil.Script.Library

def indexOfItem (a : List Value) (v : Value) (first : Nat) : Option Native :=
  Native.int ((((a.drop first).findIdx? (Operator.equal v)).map fun i => (i + first : Int)).getD (-1))

/-- The numbers from one to before another in steps; the step is not zero. -/
def stepRange (a b step : Int) : List Value :=
  let count := if 0 < step then (b - a + step - 1) / step else (a - b - step - 1) / (-step)
  (List.range count.toNat).map fun (i : Nat) => .int (a + step * i)

def readsArray (name : String) (a : List Value) (rest : List Value) : Option Native :=
  match name, rest with
  | "len", [] => Native.int a.length
  | "is_empty", [] => Native.bool a.isEmpty
  | "get", [.int i] => Native.option (do a[(← place? a.length i)]?)
  | "contains", [v] => Native.bool (a.any (Operator.equal · v))
  | "index_of", [.pointer ..] => none
  | "index_of", [v] => indexOfItem a v 0
  | "index_of", [v, .int start] => indexOfItem a v (piece a.length start a.length).1
  | "extract", [.int start] => Native.array (cut a (piece a.length start a.length)).1
  | "extract", [.int start, .int n] => Native.array (cut a (piece a.length start n)).1
  | "extract", [.range x y i] => Native.array (cut a (rangePiece a.length x y i)).1
  | _, _ => none

/-- An array without repetitions that stand side by side. -/
def dedup : List Value → List Value
  | [] => []
  | v :: rest =>
    match dedup rest with
    | [] => [v]
    | w :: ws => if Operator.equal v w then v :: ws else v :: w :: ws

def precedes (v w : Value) : Bool :=
  match Operator.binary "<=" v w with
  | some (.ok (.bool b)) => b
  | _ => true

def changesArray (name : String) (a : List Value) (rest : List Value) : Option Native :=
  let becomes (b : List Value) : Option Native := some (.change .unit (.array b))
  let gives (p : List Value × List Value) : Option Native :=
    some (.change (.array p.1) (.array p.2))
  match name, rest with
  | "append", [.array b] => becomes (a ++ b)
  | "push", [v] => becomes (a ++ [v])
  | "append", [v] => becomes (a ++ [v])
  | "insert", [.int i, v] =>
    let k := (piece a.length i a.length).1
    becomes (a.take k ++ v :: a.drop k)
  | "pop", [] => some (.change (a.getLast?.getD .unit) (.array a.dropLast))
  | "shift", [] => some (.change (a.head?.getD .unit) (.array a.tail))
  | "remove", [.int i] =>
    match place? a.length i with
    | some k => some (.change (a[k]?.getD .unit) (.array (a.eraseIdx k)))
    | none => some (.change .unit (.array a))
  | "set", [.int i, v] =>
    becomes (match place? a.length i with | some k => a.set k v | none => a)
  | "reverse", [] => becomes a.reverse
  | "clear", [] => becomes []
  | "truncate", [.int n] => becomes (a.take n.toNat)
  | "chop", [.int n] => becomes (a.drop (a.length - n.toNat))
  | "pad", [.int n, v] => becomes (a ++ List.replicate (n.toNat - a.length) v)
  | "dedup", [] => becomes (dedup a)
  | "sort", [] => becomes (a.mergeSort precedes)
  | "split", [.int i] =>
    let k := (piece a.length i a.length).1
    gives (a.drop k, a.take k)
  | "drain", [.int start, .int n] => gives (cut a (piece a.length start n))
  | "drain", [.range x y i] => gives (cut a (rangePiece a.length x y i))
  | "retain", [.int start, .int n] =>
    gives (let p := cut a (piece a.length start n); (p.2, p.1))
  | "retain", [.range x y i] =>
    gives (let p := cut a (rangePiece a.length x y i); (p.2, p.1))
  | "splice", [.int start, .int n, .array b] =>
    let p := piece a.length start n
    becomes (a.take p.1 ++ b ++ a.drop (p.1 + p.2))
  | "splice", [.range x y i, .array b] =>
    let p := rangePiece a.length x y i
    becomes (a.take p.1 ++ b ++ a.drop (p.1 + p.2))
  | _, _ => none

def merge (a b : Fields Value) : Fields Value :=
  b.foldl (fun fields (n, v) => Fields.insert n v fields) a

def onMap (name : String) (m : Fields Value) (rest : List Value) : Option Native :=
  let becomes (n : Fields Value) : Option Native := some (.change .unit (.map n))
  match name, rest with
  | "len", [] => Native.int m.length
  | "is_empty", [] => Native.bool m.isEmpty
  | "keys", [] => Native.array (m.map fun f => .string f.1)
  | "values", [] => Native.array (m.map (·.2))
  | "contains", [.string key] => Native.bool (m.has key)
  | "get", [.string key] => Native.option (m.get? key)
  | "set", [.string key, v] => becomes (m.insert key v)
  | "remove", [.string key] =>
    some (.change ((m.get? key).getD .unit) (.map (m.erase key)))
  | "clear", [] => becomes []
  | "mixin", [.map n] => becomes (merge m n)
  | "fill_with", [.map n] => becomes (merge n m)
  | _, _ => none

def onRange (name : String) (first last : Int) (inclusive : Bool) (rest : List Value) :
    Option Native :=
  match name, rest with
  | "start", [] => Native.int first
  | "end", [] => Native.int last
  | "is_inclusive", [] => Native.bool inclusive
  | "is_exclusive", [] => Native.bool !inclusive
  | "is_empty", [] => Native.bool (if inclusive then last < first else last ≤ first)
  | "contains", [.int i] =>
    Native.bool (first ≤ i && (if inclusive then i ≤ last else i < last))
  | _, _ => none

def onContainer (name : String) : List Value → Option Native
  | .array a :: rest => (readsArray name a rest).or (changesArray name a rest)
  | .map m :: rest => onMap name m rest
  | .range x y i :: rest => onRange name x y i rest
  | [.int a, .int b] => if name = "range" then some (.value (.range a b false)) else none
  | [.int a, .int b, .int step] =>
    if name ≠ "range" then none
    else if step = 0 then some (.fault (.arithmetic "step value cannot be zero"))
    else Native.array (stepRange a b step)
  | _ => none

end Stencil.Script.Library
