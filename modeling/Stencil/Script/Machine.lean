import Stencil.Script.Inquiry
import Stencil.Script.Operator

/-!
# The state of a running script

The variables in sight, the cells of shared variables, the receiver of a method and the count of
operations; how an evaluation can stop before it has a value; and the steps on the state that
evaluation is made of.
-/

namespace Stencil.Script

structure Binding where
  name : String
  value : Value
  constant : Bool
  deriving Inhabited

structure Receiver where
  value : Value
  constant : Bool
  deriving Inhabited

structure Machine where
  /-- The variables in sight, innermost first. -/
  scope : List Binding
  cells : List Value
  receiver : Option Receiver
  operations : Nat
  deriving Inhabited

inductive Stop where
  | fault (failure : Failure)
  | leave (value : Value)
  | next
  | ret (value : Value)
  | exit (value : Value)
  | unfinished
  deriving Inhabited

/-- An evaluation: it works on the state, may ask questions, and gives a value or stops. -/
def Eval (α : Type) := Machine → Inquiry (Except Stop α × Machine)

namespace Eval

variable {α β : Type}

def ok (a : α) : Eval α := fun m => .done (.ok a, m)

def stop (s : Stop) : Eval α := fun m => .done (.error s, m)

def bind (e : Eval α) (f : α → Eval β) : Eval β := fun m =>
  (e m).bind fun
    | (.ok a, m) => f a m
    | (.error s, m) => .done (.error s, m)

instance : Monad Eval where
  pure := ok
  bind := bind

instance : Inhabited (Eval α) := ⟨stop .unfinished⟩

def fault (t : Trouble) (p : Pos) : Eval α := stop (.fault (.here t (some p)))

def machine : Eval Machine := fun m => .done (.ok m, m)

def update (f : Machine → Machine) : Eval Unit := fun m => .done (.ok (), f m)

def outcome (e : Eval α) : Eval (Except Stop α) := fun m =>
  (e m).bind fun (r, m) => .done (.ok r, m)

def ofOutcome : Except Stop α → Eval α
  | .ok a => ok a
  | .error s => stop s

/-- Evaluates, and restores a part of the state in every outcome. -/
def restoring (e : Eval α) (restore : Machine → Machine → Machine) : Eval α := do
  let before ← machine
  let r ← outcome e
  update (restore before)
  ofOutcome r

/-- Evaluates; the variables that are declared go out of sight behind it. -/
def enclosed (e : Eval α) : Eval α :=
  restoring e fun before after =>
    { after with scope := after.scope.drop (after.scope.length - before.scope.length) }

/--
Evaluates the body of a function with nothing in sight but its parameters.  Gives the outcome, and
what `this` became.
-/
def framed (params : List Binding) (receiver : Option Receiver) (e : Eval α) :
    Eval (Except Stop α × Option Receiver) := do
  let before ← machine
  update fun m => { m with scope := params, receiver }
  let r ← outcome e
  let after ← machine
  update fun m => { m with scope := before.scope, receiver := before.receiver }
  return (r, after.receiver)

def field (name : String) : Eval (Option Value) := fun m =>
  .field name fun v => .done (.ok v, m)

def header : Eval String := fun m => .header fun t => .done (.ok t, m)

/-- Counts an operation; there is a limit unless it is zero. -/
def tick (limit : Nat) (p : Pos) : Eval Unit := fun m =>
  let m := { m with operations := m.operations + 1 }
  if limit ≠ 0 ∧ limit < m.operations then
    .done (.error (.fault (.here .tooManyOperations (some p))), m)
  else .done (.ok (), m)

/-! ## Variables -/

def declare (name : String) (value : Value) (constant : Bool) : Eval Unit :=
  update fun m => { m with scope := ⟨name, value, constant⟩ :: m.scope }

/-- The value behind a value: that of the cell if it is a cell. -/
def contents (v : Value) : Eval Value := fun m =>
  match v with
  | .cell id => .done (.ok (m.cells.getD id .unit), m)
  | v => .done (.ok v, m)

def binding? (name : String) : Eval (Option Binding) := fun m =>
  .done (.ok (m.scope.find? (·.name = name)), m)

def rebind (name : String) (value : Value) : List Binding → List Binding
  | [] => []
  | b :: rest => if b.name = name then { b with value } :: rest else b :: rebind name value rest

/-- Gives the innermost variable of a name a value, or the cell that it shares. -/
def assign (name : String) (value : Value) : Eval Unit := fun m =>
  match m.scope.find? (·.name = name) with
  | some ⟨_, .cell id, _⟩ => .done (.ok (), { m with cells := m.cells.set id value })
  | some _ => .done (.ok (), { m with scope := rebind name value m.scope })
  | none => .done (.ok (), m)

def share (b : Binding) : Eval Value := fun m =>
  match b.value with
  | .cell id => .done (.ok (.cell id), m)
  | v =>
    let cell : Value := .cell m.cells.length
    .done (.ok cell,
      { m with cells := m.cells ++ [v], scope := rebind b.name cell m.scope })

end Eval

def Machine.start (scope : List Binding) : Machine := ⟨scope, [], none, 0⟩

end Stencil.Script
