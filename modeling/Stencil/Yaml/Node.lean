import Stencil.Yaml.Token
import Stencil.Decimal.Reading

/-!
# YAML documents

The node that a row of tokens describes, and the JSON value it stands for.  A text holds at most one
document; an empty one is null.  Of two equal keys the last wins, and a key is taken as it is
written.
-/

namespace Stencil.Yaml

inductive Node where
  | scalar (tag : Option Tag) (text : String) (plain : Bool)
  | sequence (tag : Option Tag) (items : List Node)
  | mapping (tag : Option Tag) (pairs : List (Node × Node))

def Node.omitted (tag : Option Tag) : Node := .scalar tag "" tag.isNone

/-- The anchors seen so far; one whose node is still open has none. -/
abbrev Anchors := List (String × Option Node)

structure Reading where
  tokens : List Token
  anchors : Anchors

namespace Reading

def drop (r : Reading) : Reading := { r with tokens := r.tokens.drop 1 }

def head? (r : Reading) : Option Token := r.tokens.head?

def sees (r : Reading) (ts : List Token) : Bool := (r.head?.map ts.contains).getD true

end Reading

def properties : Nat → Option String → Option Tag → Reading →
    Option String × Option Tag × Reading
  | 0, anchor, tag, r => (anchor, tag, r)
  | fuel + 1, anchor, tag, r =>
    match r.tokens with
    | .anchor name :: rest =>
      if anchor.isNone then properties fuel (some name) tag { r with tokens := rest }
      else (anchor, tag, r)
    | .tag t :: rest =>
      if tag.isNone then properties fuel anchor (some t) { r with tokens := rest }
      else (anchor, tag, r)
    | _ => (anchor, tag, r)

def Reading.define (r : Reading) (anchor : Option String) (node : Option Node) : Reading :=
  match anchor with
  | some name => { r with anchors := (name, node) :: r.anchors }
  | none => r

mutual

/-- Reads a node; `block` allows block collections and `bare` sequences without indentation. -/
def node : Nat → Bool → Bool → Reading → Option (Node × Reading)
  | 0, _, _, _ => none
  | fuel + 1, block, bare, r =>
    match r.tokens with
    | .alias name :: rest =>
      match r.anchors.lookup name with
      | some (some n) => some (n, { r with tokens := rest })
      | _ => none
    | _ => do
      let (anchor, tag, r) := properties 2 none none r
      let r := r.define anchor none
      let (n, r) ← match r.head? with
        | some .entry => if bare then bareItems fuel tag [] r else absent anchor tag r
        | some (.scalar text plain) => some (Node.scalar tag text plain, r.drop)
        | some .flowSequence => flowItems fuel tag [] r.drop
        | some .flowMapping => flowPairs fuel tag [] r.drop
        | some .blockSequence => if block then blockItems fuel tag [] r.drop else absent anchor tag r
        | some .blockMapping => if block then blockPairs fuel tag [] r.drop else absent anchor tag r
        | _ => absent anchor tag r
      return (n, r.define anchor (some n))

/-- A node of which only the properties are written. -/
def absent (anchor : Option String) (tag : Option Tag) (r : Reading) : Option (Node × Reading) :=
  if anchor.isSome || tag.isSome then some (Node.omitted tag, r) else none

def nodeUnless : Nat → List Token → Bool → Bool → Reading → Option (Node × Reading)
  | 0, _, _, _, _ => none
  | fuel + 1, ends, block, bare, r =>
    if r.sees ends then some (Node.omitted none, r) else node fuel block bare r

def blockItems : Nat → Option Tag → List Node → Reading → Option (Node × Reading)
  | 0, _, _, _ => none
  | fuel + 1, tag, acc, r =>
    match r.head? with
    | some .entry => do
      let (n, r) ← nodeUnless fuel [.entry, .blockEnd] true false r.drop
      blockItems fuel tag (n :: acc) r
    | some .blockEnd => some (.sequence tag acc.reverse, r.drop)
    | _ => none

def bareItems : Nat → Option Tag → List Node → Reading → Option (Node × Reading)
  | 0, _, _, _ => none
  | fuel + 1, tag, acc, r =>
    match r.head? with
    | some .entry => do
      let (n, r) ← nodeUnless fuel [.entry, .key, .value, .blockEnd] true false r.drop
      bareItems fuel tag (n :: acc) r
    | _ => some (.sequence tag acc.reverse, r)

def blockPairs : Nat → Option Tag → List (Node × Node) → Reading → Option (Node × Reading)
  | 0, _, _, _ => none
  | fuel + 1, tag, acc, r =>
    match r.head? with
    | some .key => do
      let (k, r) ← nodeUnless fuel [.key, .value, .blockEnd] true true r.drop
      match r.head? with
      | some .value =>
        let (v, r) ← nodeUnless fuel [.key, .value, .blockEnd] true true r.drop
        blockPairs fuel tag ((k, v) :: acc) r
      | _ => blockPairs fuel tag ((k, Node.omitted none) :: acc) r
    | some .blockEnd => some (.mapping tag acc.reverse, r.drop)
    | _ => none

def flowPair : Nat → Token → Reading → Option ((Node × Node) × Reading)
  | 0, _, _ => none
  | fuel + 1, close, r => do
    let (k, r) ← nodeUnless fuel [.value, .flowEntry, close] false false r
    match r.head? with
    | some .value =>
      let (v, r) ← nodeUnless fuel [.flowEntry, close] false false r.drop
      return ((k, v), r)
    | _ => return ((k, Node.omitted none), r)

def flowItems : Nat → Option Tag → List Node → Reading → Option (Node × Reading)
  | 0, _, _, _ => none
  | fuel + 1, tag, acc, r =>
    match r.head? with
    | some .flowSequenceEnd => some (.sequence tag acc.reverse, r.drop)
    | _ => do
      let r ← if acc.isEmpty then some r
        else if r.head? = some .flowEntry then some r.drop else none
      match r.head? with
      | some .flowSequenceEnd => some (.sequence tag acc.reverse, r.drop)
      | some .key =>
        let (p, r) ← flowPair fuel .flowSequenceEnd r.drop
        flowItems fuel tag (.mapping none [p] :: acc) r
      | _ =>
        let (n, r) ← node fuel false false r
        flowItems fuel tag (n :: acc) r

def flowPairs : Nat → Option Tag → List (Node × Node) → Reading → Option (Node × Reading)
  | 0, _, _, _ => none
  | fuel + 1, tag, acc, r =>
    match r.head? with
    | some .flowMappingEnd => some (.mapping tag acc.reverse, r.drop)
    | _ => do
      let r ← if acc.isEmpty then some r
        else if r.head? = some .flowEntry then some r.drop else none
      match r.head? with
      | some .flowMappingEnd => some (.mapping tag acc.reverse, r.drop)
      | some .key =>
        let (p, r) ← flowPair fuel .flowMappingEnd r.drop
        flowPairs fuel tag (p :: acc) r
      | some .value =>
        let (p, r) ← flowPair fuel .flowMappingEnd r
        flowPairs fuel tag (p :: acc) r
      | _ =>
        let (n, r) ← node fuel false false r
        flowPairs fuel tag ((n, Node.omitted none) :: acc) r

end

/-! ## Values -/

def fits (i : Int) : Bool := -9223372036854775808 ≤ i && i ≤ 18446744073709551615

/-- The value of a plain scalar.  A whole number needs to fit 64 bits. -/
def plainValue? (s : List Char) : Option Json :=
  if isNull s then some .null
  else
    match bool? s with
    | some b => some (.bool b)
    | none =>
      match integer? s with
      | some i => if fits i then some (.integer i) else none
      | none =>
        match floatValue? s with
        | some x => some x
        | none => some (.string (String.ofList s))
where
  /-- Floats; the infinite and undefined ones have no JSON value of their own. -/
  floatValue? (s : List Char) : Option Json :=
    let unsigned := match s with
      | '+' :: r => r
      | r => r
    let special := [".inf", ".Inf", ".INF"].map String.toList
    let undefined := [".nan", ".NaN", ".NAN"].map String.toList
    if special.contains unsigned || undefined.contains s then some .null
    else if special.any (fun w => '-' :: w == s) then some .null
    else if paddedDigits s then none
    else
      match Decimal.read? s with
      | some x => if x.isInf then none else some (.float x)
      | none => none

def taggedValue? (name : String) (text : String) : Option Json :=
  let s := text.toList
  match name with
  | "null" => if isNull s && !s.isEmpty then some .null else none
  | "bool" => (bool? s).map .bool
  | "int" => (integer? s).bind fun i =>
    if fits i then some (.integer i) else none
  | "float" =>
    match plainValue?.floatValue? s with
    | some x => some x
    | none => (Decimal.read? s).map .float
  | _ => some (.string text)

mutual

def Node.value? : Nat → Node → Option Json
  | 0, _ => none
  | depth + 1, n =>
    match n with
    | .scalar none text plain => if plain then plainValue? text.toList else some (.string text)
    | .scalar (some .plainText) text _ => some (.string text)
    | .scalar (some (.core name)) text _ => taggedValue? name text
    | .scalar (some .custom) _ _ => none
    | .sequence (some .custom) _ => none
    | .mapping (some .custom) _ => none
    | .sequence _ items => (values? depth items).map .array
    | .mapping _ pairs => (fields? depth [] pairs).map .object

def values? : Nat → List Node → Option (List Json)
  | _, [] => some []
  | depth, n :: rest => do
    let v ← n.value? depth
    return v :: (← values? depth rest)

def fields? : Nat → Fields Json → List (Node × Node) → Option (Fields Json)
  | _, acc, [] => some acc
  | depth, acc, (k, v) :: rest =>
    match k with
    | .scalar _ name _ => do
      let v ← v.value? depth
      fields? depth (acc.insert name v) rest
    | _ => none

end

def depthLimit : Nat := 128

def documentStart : List Token → Option (List Token)
  | .directive :: rest => documentStart rest
  | .documentStart :: rest => some rest
  | _ => none

def read? (text : String) : Option Json := do
  let ts ← tokens? text
  let ts := ts.dropWhile (· = .documentEnd)
  match ts with
  | [] => return .null
  | t :: _ =>
    let ts ← if t = .directive || t = .documentStart then documentStart ts else some ts
    let (n, r) ← nodeUnless (4 * ts.length + 8)
      [.documentStart, .documentEnd, .directive] true false ⟨ts, []⟩
    if (r.tokens.dropWhile (· = .documentEnd)).isEmpty then n.value? depthLimit else none

end Stencil.Yaml
