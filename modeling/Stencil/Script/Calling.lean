import Stencil.Script.Machine
import Stencil.Script.Access
import Stencil.Script.Parser

/-!
# Calls

Looking names up, calling functions of the script and of the library, and following a chain of
properties, indexes and methods into a value.  Bodies of functions are not evaluated here: that is
the task of `below`, which evaluates one level further down.
-/

namespace Stencil.Script

structure Engine where
  functions : List Function
  /-- How many operations are allowed; any number if it is zero. -/
  limit : Nat
  emitting : Bool

/-- How statements are evaluated one level further down. -/
abbrev Below := List Stmt → Eval Value

namespace Engine

def function? (engine : Engine) (name : String) (arity : Nat) : Option Function :=
  engine.functions.find? fun f => f.name = name && f.params.length = arity

def defines (engine : Engine) (name : String) : Bool :=
  engine.functions.any (·.name = name)

def native? (engine : Engine) : Natives := fun name args =>
  match name, args with
  | "_render", [v] =>
    if engine.emitting then some (.value (.string v.render)) else none
  | _, _ => Library.native? name args

end Engine

def signature (name : String) (args : List Value) : String :=
  name ++ " (" ++ String.intercalate ", " (args.map Value.argumentKind) ++ ")"

/-- A fault in a function as its caller sees it.  Faults that no handler may catch stay plain. -/
def Failure.outOf (function : String) (closure : Bool) (pos : Pos) : Failure → Failure
  | .here t p =>
    if t.catchable then .inCall function closure (.here t p) (some pos) else .here t (some pos)
  | inner => .inCall function closure inner (some pos)

inductive Access where
  | property (name : String) (pos : Pos) (optional : Bool)
  | method (name : String) (args : List Value) (pos : Pos) (optional : Bool)
  | index (index : Value) (pos : Pos) (optional : Bool)

namespace Eval

def located {α : Type} (p : Pos) : Except Trouble α → Eval α
  | .ok a => ok a
  | .error t => fault t p

def calling {α : Type} (function : String) (closure : Bool) (pos : Pos) (e : Eval α) : Eval α := do
  match ← outcome e with
  | .error (.fault failure) => stop (.fault (failure.outOf function closure pos))
  | r => ofOutcome r

/-! ## Variables -/

structure Found where
  value : Value
  constant : Bool
  own : Bool

/--
Looks a name up: first among the variables in sight, then among the fields, which the surroundings
know, and last among the functions of the script.
-/
def lookup (engine : Engine) (name : String) (pos : Pos) : Eval Found := do
  match ← binding? name with
  | some b => return ⟨← contents b.value, b.constant, true⟩
  | none =>
    match ← field name with
    | some v => return ⟨v, true, false⟩
    | none =>
      if engine.defines name then return ⟨.pointer name [], true, false⟩
      else fault (.unknownVariable name) pos

def putBack (name : String) (found : Found) (value : Value) : Eval Unit :=
  if found.own && !found.constant then assign name value else ok ()

/-! ## Functions of the script -/

def invoke (engine : Engine) (below : Below) (f : Function) (args : List Value)
    (receiver : Option Receiver) (pos : Pos) : Eval (Value × Option Receiver) := do
  tick engine.limit pos
  let params := (f.params.zip args).map fun (name, value) => (⟨name, value, false⟩ : Binding)
  let (r, after) ← framed params.reverse receiver (below [f.body])
  match r with
  | .ok v | .error (.ret v) => return (v, after)
  | .error (.fault failure) =>
    stop (.fault (failure.outOf f.name (Parser.isClosureName f.name) pos))
  | .error s => stop s

/--
Calls the function that a pointer names, with a subject that is its first argument or else its
`this`, with `items` behind it and as many of `extras` as it takes.  Gives also what the subject
became.
-/
def apply (engine : Engine) (below : Below) (name : String) (curried : List Value)
    (subject : Option Value) (items extras : List Value) (pos : Pos) :
    Eval (Value × Option Value) := do
  let full := subject.toList ++ items
  let this := subject.map fun v => (⟨v, false⟩ : Receiver)
  let passed (f : Function) (args : List Value) : Eval (Value × Option Value) := do
    let (r, _) ← invoke engine below f (curried ++ args) none pos
    return (r, subject)
  match engine.function? name (curried.length + full.length) with
  | some f => passed f full
  | none =>
    match engine.function? name (curried.length + full.length + extras.length) with
    | some f => passed f (full ++ extras)
    | none =>
      match engine.function? name (curried.length + items.length) with
      | some f =>
        let (r, after) ← invoke engine below f (curried ++ items) this pos
        return (r, after.map (·.value))
      | none =>
        match engine.native? name (curried ++ full) with
        | some (.value r) => return (r, subject)
        | some (.change r v) => return (r, if curried.isEmpty then some v else subject)
        | some (.fault t) => fault t pos
        | none => fault (.unknownFunction (signature name (curried ++ full))) pos

end Eval

/-! ## Functions of the library that call others -/

namespace Higher

abbrev OnItem := Value → Nat → Eval (Value × Value)

def isTrue : Value → Bool
  | .bool b => b
  | _ => false

def results (f : OnItem) : Nat → List Value → Eval (List Value × List Value)
  | _, [] => Eval.ok ([], [])
  | i, v :: rest => do
    let (r, v) ← f v i
    let (rs, vs) ← results f (i + 1) rest
    return (r :: rs, v :: vs)

def parted (f : OnItem) : Nat → List Value → Eval (List Value × List Value)
  | _, [] => Eval.ok ([], [])
  | i, v :: rest => do
    let (r, _) ← f v i
    let (yes, no) ← parted f (i + 1) rest
    return if isTrue r then (v :: yes, no) else (yes, v :: no)

def first? (f : OnItem) : Nat → List Value → Eval (Option (Nat × Value))
  | _, [] => Eval.ok none
  | i, v :: rest => do
    let (r, _) ← f v i
    if isTrue r then return some (i, v) else first? f (i + 1) rest

def firstResult (f : OnItem) : Nat → List Value → Eval Value
  | _, [] => Eval.ok .unit
  | i, v :: rest => do
    let (r, _) ← f v i
    match r with
    | .unit => firstResult f (i + 1) rest
    | r => return r

def gathered (f : Value → Value → Nat → Eval Value) : Value → List (Value × Nat) → Eval Value
  | acc, [] => Eval.ok acc
  | acc, (v, i) :: rest => do gathered f (← f acc v i) rest

def insertSorted (after : Value → Value → Eval Bool) (v : Value) : List Value → Eval (List Value)
  | [] => Eval.ok [v]
  | w :: rest => do
    if ← after w v then return v :: w :: rest
    else return w :: (← insertSorted after v rest)

/-- Sorts items; those that are equal stay in order. -/
def sorted (after : Value → Value → Eval Bool) : List Value → List Value → Eval (List Value)
  | done, [] => Eval.ok done
  | done, v :: rest => do sorted after (← insertSorted after v done) rest

def changing : List String := ["for_each", "retain", "drain", "sort"]

/--
The functions on arrays that call a function on the items.  Gives the result and what becomes of
the array, if it may change.
-/
def onArray (name : String) (items : List Value) (rest : List Value) (f : OnItem)
    (g : Value → Value → Nat → Eval Value) : Option (Eval (Value × Option Value)) :=
  let reads (e : Eval Value) : Option (Eval (Value × Option Value)) :=
    some do return (← e, none)
  let numbered := items.zip (List.range items.length)
  match name, rest with
  | "map", [] => reads do return .array (← results f 0 items).1
  | "filter", [] => reads do return .array (← parted f 0 items).1
  | "some", [] => reads do return .bool (← first? f 0 items).isSome
  | "all", [] => reads do
    let fails : OnItem := fun v i => do
      let (r, v) ← f v i
      return (.bool !isTrue r, v)
    return .bool (← first? fails 0 items).isNone
  | "find", [] => reads do return ((← first? f 0 items).map (·.2)).getD .unit
  | "find_map", [] => reads (firstResult f 0 items)
  | "index_of", [] => reads do
    return .int (((← first? f 0 items).map fun p => (p.1 : Int)).getD (-1))
  | "reduce", [] => reads (gathered g .unit numbered)
  | "reduce", [start] => reads (gathered g start numbered)
  | "reduce_rev", [] => reads (gathered g .unit numbered.reverse)
  | "reduce_rev", [start] => reads (gathered g start numbered.reverse)
  | "for_each", [] => some do return (.unit, some (.array (← results f 0 items).2))
  | "retain", [] => some do
    let (yes, no) ← parted f 0 items
    return (.array no, some (.array yes))
  | "drain", [] => some do
    let (yes, no) ← parted f 0 items
    return (.array yes, some (.array no))
  | "sort", [] => some do
    let after (v w : Value) : Eval Bool := do
      match ← Eval.outcome (g v w 0) with
      | .ok (.int i) => return 0 < i
      | _ => return false
    return (.unit, some (.array (← sorted after [] items)))
  | _, _ => none

end Higher

namespace Eval

/-! ## Functions of the library -/

def library (engine : Engine) (below : Below) (name : String) (v : Value) (constant : Bool)
    (args : List Value) (pos : Pos) : Eval (Value × Value) :=
  let missing : Eval (Value × Value) := fault (.unknownFunction (signature name (v :: args))) pos
  match engine.native? name (v :: args) with
  | some (.value r) => ok (r, v)
  | some (.change r v) => if constant then fault (.changesConstant name) pos else ok (r, v)
  | some (.fault t) => fault t pos
  | none =>
    match v, args with
    | .array items, .pointer f curried :: rest =>
      let onItem : Higher.OnItem := fun item i => do
        let (r, item') ← apply engine below f curried (some item) [] [.int i] pos
        return (r, item'.getD item)
      let onTwo (a b : Value) (i : Nat) : Eval Value := do
        return (← apply engine below f curried none [a, b] [.int i] pos).1
      match Higher.onArray name items rest onItem onTwo with
      | none => missing
      | some e =>
        if constant && Higher.changing.contains name then fault (.changesConstant name) pos
        else do
          let (r, changed) ← calling name false pos e
          return (r, changed.getD v)
    | _, _ => missing

def call (engine : Engine) (below : Below) (name : String) (args : List Value) (pos : Pos) :
    Eval Value := do
  match engine.function? name args.length with
  | some f => return (← invoke engine below f args none pos).1
  | none =>
    match args with
    | v :: rest => return (← library engine below name v false rest pos).1
    | [] =>
      if engine.emitting && name = "_spec_header" then return .string (← header)
      else
        match engine.native? name [] with
        | some (.value r) => return r
        | _ => fault (.unknownFunction (signature name [])) pos

def callPointer (engine : Engine) (below : Below) (pointer : Value) (args : List Value)
    (receiver : Option Receiver) (pos : Pos) : Eval (Value × Option Receiver) := do
  match pointer with
  | .pointer name curried =>
    let all := curried ++ args
    match engine.function? name all.length with
    | some f => invoke engine below f all receiver pos
    | none => return (← call engine below name (← all.mapM contents) pos, receiver)
  | v => fault (.mismatch v.kind "Fn") pos

def heldFunction? (name : String) : Value → Option Value
  | .map fields =>
    match Fields.get? name fields with
    | some (.pointer f curried) => some (.pointer f curried)
    | _ => none
  | _ => none

def method (engine : Engine) (below : Below) (name : String) (v : Value) (constant : Bool)
    (args : List Value) (pos : Pos) : Eval (Value × Value) := do
  tick engine.limit pos
  let this : Receiver := ⟨v, constant⟩
  let kept (p : Value × Option Receiver) : Value × Value :=
    (p.1, (p.2.map (·.value)).getD v)
  match heldFunction? name v with
  | some f => return kept (← callPointer engine below f args (some this) pos)
  | none =>
    match name, v, args with
    | "call", .pointer f curried, _ =>
      return ((← callPointer engine below (.pointer f curried) args none pos).1, v)
    | "call", _, .pointer f curried :: rest =>
      return kept (← callPointer engine below (.pointer f curried) rest (some this) pos)
    | "curry", .pointer f curried, _ => return (.pointer f (curried ++ args), v)
    | "is_shared", _, [] => return (.bool false, v)
    | _, _, _ =>
      match engine.function? name args.length with
      | some f => return kept (← invoke engine below f args (some this) pos)
      | none => library engine below name v constant args pos

/-! ## Chains -/

/-- Follows a chain into a value.  Gives what it leads to, and what the value became. -/
def walk (engine : Engine) (below : Below) : List Access → Bool → Value → Eval (Value × Value)
  | [], _, v => ok (v, v)
  | .property name pos optional :: rest, constant, v => do
    if optional && v matches .unit then return (.unit, v)
    else
      let part ← located pos (v.readProperty name)
      let (r, part) ← walk engine below rest constant part
      match rest with
      | [] => return (r, v)
      | _ =>
        if v.hasField name then return (r, ← located pos (v.writeProperty name part))
        else return (r, v)
  | .index index pos optional :: rest, constant, v => do
    if optional && v matches .unit then return (.unit, v)
    else
      let part ← located pos (v.readIndex index)
      let (r, part) ← walk engine below rest constant part
      match rest, v, index with
      | [], _, _ => return (r, v)
      | _, .array _, _ => return (r, ← located pos (v.writeIndex index part))
      | _, .map fields, .string name =>
        if Fields.has name fields then return (r, ← located pos (v.writeIndex index part))
        else return (r, v)
      | _, _, _ => return (r, v)
  | .method name args pos optional :: rest, constant, v => do
    if optional && v matches .unit then return (.unit, v)
    else
      let (r, v) ← method engine below name v constant args pos
      let (r, _) ← walk engine below rest false r
      return (r, v)

def combine (op : Option String) (old value : Value) (pos : Pos) : Eval Value :=
  match op with
  | none => ok value
  | some op =>
    match Operator.combined op old value with
    | some r => located pos r
    | none => fault (.unknownFunction (signature op [old, value])) pos

/-- A value in which the place at the end of a chain has been assigned to. -/
def store (op : Option String) (value : Value) (opPos : Pos) : List Access → Value → Eval Value
  | [], v => combine op v value opPos
  | .property name pos optional :: rest, v => do
    if optional && v matches .unit then return v
    else
      match op, rest with
      | none, [] => located pos (v.writeProperty name value)
      | _, _ =>
        let part ← located pos (v.readProperty name)
        located pos (v.writeProperty name (← store op value opPos rest part))
  | .index index pos optional :: rest, v => do
    if optional && v matches .unit then return v
    else
      match op, rest with
      | none, [] => located pos (v.writeIndex index value)
      | _, _ =>
        let part ← located pos (v.readIndex index)
        located pos (v.writeIndex index (← store op value opPos rest part))
  | .method _ _ _ _ :: _, v => ok v

end Eval

end Stencil.Script
