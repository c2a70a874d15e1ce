import Stencil.Script.Library.Native
import Stencil.Text.Blank
import Stencil.Text.Case
import Stencil.Decimal.Reading

/-!
# Functions on strings

Places are counted in characters.  Functions that change a string in place give a unit, or what they
took out of it.
-/

namespace Stencil.Script.Library

open Stencil.Text

def chars? : Value → Option (List Char)
  | .string s => some s.toList
  | .char c => some [c]
  | _ => none

def ofChars (cs : List Char) : Value := .string (String.ofList cs)

def find? (pattern : List Char) : Nat → List Char → Option Nat
  | i, [] => if pattern = [] then some i else none
  | i, c :: r => if pattern.isPrefixOf (c :: r) then some i else find? pattern (i + 1) r

/--
The pieces between the occurrences of a pattern, of which there are at most `limit`; `skip` counts
the characters of an occurrence that are still to be passed, `acc` holds the present piece in
reverse.
-/
def splitAt (pattern : List Char) : Nat → Nat → List Char → List Char → List (List Char)
  | _, _, acc, [] => [acc.reverse]
  | limit, skip + 1, acc, _ :: r => splitAt pattern limit skip acc r
  | limit, 0, acc, c :: r =>
    if limit ≠ 0 ∧ pattern.isPrefixOf (c :: r) then
      acc.reverse :: splitAt pattern (limit - 1) (pattern.length - 1) [] r
    else splitAt pattern limit 0 (c :: acc) r

/-- The pieces of a text; an empty pattern stands between all characters and at both ends. -/
def splitText (pattern : List Char) (limit : Nat) (cs : List Char) : List (List Char) :=
  if pattern = [] then
    let bits := [] :: (cs.map ([·]) ++ [[]])
    bits.take limit ++ (if limit < bits.length then [(bits.drop limit).flatten] else [])
  else splitAt pattern limit 0 [] cs

def words : List Char → List Char → List (List Char)
  | acc, [] => if acc = [] then [] else [acc.reverse]
  | acc, c :: r =>
    if isBlank c then if acc = [] then words [] r else acc.reverse :: words [] r
    else words (c :: acc) r

def replaceText (pattern by_ cs : List Char) : List Char :=
  List.intercalate by_ (splitText pattern (cs.length + 2) cs)

def integerFault (radix : Nat) (text : List Char) : String ⊕ Int :=
  let (negative, digits) := match text with
    | '-' :: r => (true, r)
    | '+' :: r => (false, r)
    | r => (false, r)
  let value (c : Char) : Option Nat :=
    let n := if c.isDigit then some (c.toNat - 48)
      else if c.isLower then some (c.toNat - 87)
      else if c.isUpper then some (c.toNat - 55) else none
    n.filter (· < radix)
  if text = [] then .inl "cannot parse integer from empty string"
  else if digits = [] || digits.any (value · = none) then .inl "invalid digit found in string"
  else
    let n : Nat := digits.foldl (fun n c => n * radix + (value c).getD 0) 0
    let i : Int := if negative then -(n : Int) else (n : Int)
    if i > maxInt then .inl "number too large to fit in target type"
    else if i < minInt then .inl "number too small to fit in target type"
    else .inr i

def parseInt (radix : Nat) (s : String) : Native :=
  match integerFault radix (trimChars s.toList) with
  | .inr i => .value (.int i)
  | .inl why =>
    .fault (.arithmetic ("Error parsing integer number '" ++ s ++ "': " ++ why))

def parseFloat (s : String) : Native :=
  let text := trimChars s.toList
  match Decimal.read? text with
  | some x => .value (.float x)
  | none =>
    .fault (.arithmetic ("Error parsing floating-point number '" ++ s ++ "': " ++
      (if text = [] then "cannot parse float from empty string" else "invalid float literal")))

def indexOf (s pattern : List Char) (start : Int) : Option Native :=
  let first := (piece s.length start s.length).1
  if s.length ≤ first && s ≠ [] then Native.int (-1)
  else Native.int (((find? pattern first (s.drop first)).map Int.ofNat).getD (-1))

def readsText (name : String) (s : List Char) (rest : List Value) : Option Native :=
  match name, rest with
  | "len", [] => Native.int s.length
  | "bytes", [] => Native.int (String.ofList s).utf8ByteSize
  | "is_empty", [] => Native.bool s.isEmpty
  | "to_upper", [] => Native.text (s.flatMap upperChar)
  | "to_lower", [] => Native.text (lower (String.ofList s)).toList
  | "chars", [] => Native.array (s.map .char)
  | "to_chars", [] => Native.array (s.map .char)
  | "contains", [v] => do Native.bool (find? (← chars? v) 0 s).isSome
  | "starts_with", [v] => do Native.bool ((← chars? v).isPrefixOf s)
  | "ends_with", [v] => do Native.bool ((← chars? v).isSuffixOf s)
  | "index_of", [v] => do indexOf s (← chars? v) 0
  | "index_of", [v, .int start] => do indexOf s (← chars? v) start
  | "get", [.int i] => Native.option (do return .char (← s[(← place? s.length i)]?))
  | "sub_string", [.int start] => Native.text (cut s (piece s.length start s.length)).1
  | "sub_string", [.int start, .int n] => Native.text (cut s (piece s.length start n)).1
  | "sub_string", [.range a b i] => Native.text (cut s (rangePiece s.length a b i)).1
  | "split", [] => Native.array ((words [] s).map ofChars)
  | "split", [.int i] =>
    let n := (piece s.length i s.length).1
    Native.array [ofChars (s.take n), ofChars (s.drop n)]
  | "split", [v] => do Native.array ((splitText (← chars? v) (s.length + 2) s).map ofChars)
  | "split", [v, .int n] => do
    Native.array ((splitText (← chars? v) ((max n 1).toNat - 1) s).map ofChars)
  | "split_rev", [v] => do
    Native.array ((splitText (← chars? v) (s.length + 2) s).map ofChars).reverse
  | "split_rev", [v, .int n] => do
    let pieces := splitText (← chars? v).reverse ((max n 1).toNat - 1) s.reverse
    Native.array (pieces.map fun p => ofChars p.reverse)
  | "parse_int", [] => some (parseInt 10 (String.ofList s))
  | "parse_int", [.int radix] =>
    if 2 ≤ radix && radix ≤ 36 then some (parseInt radix.toNat (String.ofList s))
    else some (.fault (.arithmetic ("Invalid radix: '" ++ toString radix ++ "'")))
  | "parse_float", [] => some (parseFloat (String.ofList s))
  | _, _ => none

def changesText (name : String) (s : List Char) (rest : List Value) : Option Native :=
  let becomes (cs : List Char) : Option Native := some (.change .unit (ofChars cs))
  match name, rest with
  | "trim", [] => becomes (trimChars s)
  | "make_upper", [] => becomes (s.flatMap upperChar)
  | "make_lower", [] => becomes (lower (String.ofList s)).toList
  | "clear", [] => becomes []
  | "truncate", [.int n] => becomes (s.take n.toNat)
  | "append", [v] => becomes (s ++ v.display.toList)
  | "push", [v] => becomes (s ++ v.display.toList)
  | "remove", [v] => do becomes (replaceText (← chars? v) [] s)
  | "replace", [v, w] => do becomes (replaceText (← chars? v) (← chars? w) s)
  | "pad", [.int n, v] => do
    let filling ← chars? v
    if filling = [] then becomes s
    else
      let missing := n.toNat - s.length
      becomes (s ++ ((List.replicate missing filling).flatten).take missing)
  | "pop", [] =>
    match s.getLast? with
    | some c => some (.change (.char c) (ofChars s.dropLast))
    | none => some (.change .unit (ofChars s))
  | "pop", [.int n] =>
    let k := s.length - n.toNat
    some (.change (ofChars (s.drop k)) (ofChars (s.take k)))
  | "set", [.int i, .char c] =>
    becomes (match place? s.length i with | some k => s.set k c | none => s)
  | "crop", [.int start] => becomes (cut s (piece s.length start s.length)).1
  | "crop", [.int start, .int n] => becomes (cut s (piece s.length start n)).1
  | "crop", [.range a b i] => becomes (cut s (rangePiece s.length a b i)).1
  | _, _ => none

def onChar (name : String) (c : Char) (rest : List Value) : Option Native :=
  match name, rest with
  | "to_int", [] => Native.int c.toNat
  | "to_upper", [] =>
    match upperChar c with
    | [d] => some (.value (.char d))
    | _ => some (.value (.char c))
  | "to_lower", [] =>
    match lowerChar c with
    | [d] => some (.value (.char d))
    | _ => some (.value (.char c))
  | _, _ => none

def onText (name : String) : List Value → Option Native
  | .string s :: rest =>
    (readsText name s.toList rest).or (changesText name s.toList rest)
  | .char c :: rest => onChar name c rest
  | _ => none

end Stencil.Script.Library
