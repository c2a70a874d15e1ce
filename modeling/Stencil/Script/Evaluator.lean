import Stencil.Script.Calling
import Stencil.Script.Simplify

/-!
# Evaluation

The value of expressions and statements.  Evaluation follows the syntax; the bodies of called
functions and the texts given to `eval` are evaluated one level further down, and a script that
goes down too far ends with a fault.  Loops run until they end, or until a count of rounds that no
script reaches.
-/

namespace Stencil.Script

namespace Eval

/-! ## Loops -/

/-- How many rounds a loop may run that has no items. -/
def roundLimit : Nat := 18446744073709551616

/-- One round of a loop: the value that the loop is left with, if it is left. -/
def round (body : Eval Value) : Eval (Option Value) := do
  match ← outcome body with
  | .ok _ | .error .next => return none
  | .error (.leave v) => return some v
  | .error s => stop s

def rounds : Nat → Eval (Option Value) → Eval Value
  | 0, _ => stop .unfinished
  | n + 1, one => do
    match ← one with
    | some v => return v
    | none => rounds n one

def eachItem (one : Value → Nat → Eval (Option Value)) : Nat → List Value → Eval Value
  | _, [] => ok .unit
  | i, v :: rest => do
    match ← one v i with
    | some r => return r
    | none => eachItem one (i + 1) rest

def eachNumber (one : Value → Nat → Eval (Option Value)) (first : Int) : Nat → Nat → Eval Value
  | _, 0 => ok .unit
  | i, count + 1 => do
    match ← one (.int (first + i)) i with
    | some r => return r
    | none => eachNumber one first (i + 1) count

def eachOf (subject : Value) (p : Pos) (one : Value → Nat → Eval (Option Value)) : Eval Value :=
  match subject with
  | .range first last inclusive =>
    eachNumber one first 0 (last - first + if inclusive then 1 else 0).toNat
  | v =>
    match v.items? with
    | some items => eachItem one 0 items
    | none => fault .notIterable p

/-! ## Parts of statements -/

def boolean (p : Pos) : Value → Eval Bool
  | .bool b => ok b
  | v => fault (.mismatch v.kind "bool") p

def caught : Failure → Value
  | .here (.thrown v) _ => v
  | failure =>
    let plain := failure.relocated none
    let (kind, details) : String × List (String × Value) := match failure with
      | .inCall f _ _ _ =>
        ("ErrorInFunctionCall", [("function", .string f), ("source", .string "")])
      | .here t _ => (t.kind, t.details)
    let place := match failure.pos? with
      | some p => [("line", .int p.line), ("position", .int p.column)]
      | none => []
    .map (Fields.ofList
      ([("message", .string plain.message), ("error", .string kind)] ++ place ++ details))

/-- Whether a handler ends by throwing a unit, which throws the fault again that it handles. -/
def rethrows? : Except Stop Value → Option (Option Pos)
  | .error (.fault (.here (.thrown .unit) p)) => some p
  | _ => none

def attempt (body : Eval Value) (handler : Value → Eval Value) : Eval Value := do
  match ← outcome body with
  | .error (.fault failure) =>
    if failure.catchable then
      let r ← outcome (handler (caught failure))
      match rethrows? r with
      | some p => stop (.fault (failure.relocated p))
      | none =>
        let _ ← ofOutcome r
        return .unit
    else stop (.fault failure)
  | r => ofOutcome r

/-- The value of a closure: its function with the variables it captures, which become shared. -/
def capture (engine : Engine) : List (String × Pos) → Eval (List Value)
  | [] => ok []
  | (name, p) :: rest => do
    let v ← match ← binding? name with
      | some b => share b
      | none => pure (← lookup engine name p).value
    return v :: (← capture engine rest)

def evaluated (below : Below) (text : String) (p : Pos) : Eval Value := do
  let body : Eval Value :=
    match parse text with
    | .error f => stop (.fault (.here (.unreadable f.reason) (some f.pos)))
    | .ok program =>
      if program.functions.isEmpty then do
        match ← outcome (below program.body) with
        | .error (.ret v) => return v
        | r => ofOutcome r
      else stop (.fault (.here (.unreadable Parser.innerFunction) none))
  match ← outcome body with
  | .error (.fault failure) => stop (.fault (.inCall "eval" false failure (some p)))
  | r => ofOutcome r

def special (engine : Engine) (below : Below) (name : String) (args : List Value)
    (places : List Pos) (pos : Pos) : Option (Eval Value) :=
  match name, args, places with
  | "eval", [.string text], [p] => some (evaluated below text p)
  | "eval", [v], [p] => some (fault (.mismatch v.kind "string") p)
  | "Fn", [.string f], _ => some (ok (.pointer f []))
  | "Fn", [v], [p] => some (fault (.mismatch v.kind "string") p)
  | "call", .pointer f curried :: rest, _ =>
    some do return (← callPointer engine below (.pointer f curried) rest none pos).1
  | "call", v :: _, p :: _ => some (fault (.mismatch v.kind "Fn") p)
  | "curry", .pointer f curried :: rest, _ => some (ok (.pointer f (curried ++ rest)))
  | "curry", v :: _, p :: _ => some (fault (.mismatch v.kind "Fn") p)
  | "is_def_var", [.string x], _ => some do return .bool (← binding? x).isSome
  | "is_def_fn", [.string f, .int n], _ =>
    some (ok (.bool (0 ≤ n && (engine.function? f n.toNat).isSome)))
  | "exit", [], _ => some (stop (.exit .unit))
  | "exit", [v], _ => some (stop (.exit v))
  | _, _, _ => none

def Case.matches (v : Value) : Case → Bool
  | .mk patterns _ _ => patterns.any fun
    | .range .. => false
    | p => v.same p

def Case.covers (v : Value) : Case → Bool
  | .mk patterns _ _ => patterns.any fun
    | .range a b i => v.inRange a b i
    | _ => false

def Case.isDefault : Case → Bool
  | .mk patterns _ _ => patterns.isEmpty

/-- Which cases are tried for a value: those with a pattern for it, else those with a range. -/
def candidate (cases : List Case) (v : Value) : Case → Bool :=
  if cases.any (Case.matches v) then Case.matches v else Case.covers v

/-! ## Expressions and statements -/

mutual

def expr (engine : Engine) (below : Below) : Expr → Eval Value
  | .const v p => do
    tick engine.limit p
    return v
  | .interpolated parts p => do
    tick engine.limit p
    let vs ← exprs engine below parts
    return .string (String.join (vs.map Value.display))
  | .array items p => do
    tick engine.limit p
    return .array (← exprs engine below items)
  | .map fs p => do
    tick engine.limit p
    return .map (Fields.ofList (← fields engine below fs))
  | .variable name p => do
    tick engine.limit p
    return (← lookup engine name p).value
  | .this p => do
    tick engine.limit p
    match (← machine).receiver with
    | some r => return r.value
    | none => fault .unboundReceiver p
  | .call name (.variable first p :: more) pos => do
    tick engine.limit pos
    if name = "is_shared" then
      match ← binding? first with
      | some ⟨_, .cell _, _⟩ => return .bool true
      | _ => return .bool false
    else
      let rest ← exprs engine below more
      tick engine.limit p
      let found ← lookup engine first p
      match special engine below name (found.value :: rest) (p :: more.map Expr.pos) pos with
      | some e => e
      | none =>
        match engine.function? name (rest.length + 1) with
        | some f => return (← invoke engine below f (found.value :: rest) none pos).1
        | none =>
          let fixed := found.constant && !found.own
          let (r, v) ← library engine below name found.value fixed rest pos
          putBack first found v
          return r
  | .call name args pos => do
    tick engine.limit pos
    let vs ← exprs engine below args
    match special engine below name vs (args.map Expr.pos) pos with
    | some e => e
    | none => call engine below name vs pos
  | .operator op args pos => do
    tick engine.limit pos
    let vs ← exprs engine below args
    match Operator.apply op vs with
    | some r => located pos r
    | none => fault (.unknownFunction (signature op vs)) pos
  | .both l r p => do
    tick engine.limit p
    if ← boolean l.pos (← expr engine below l) then
      return .bool (← boolean r.pos (← expr engine below r))
    else return .bool false
  | .either l r p => do
    tick engine.limit p
    if ← boolean l.pos (← expr engine below l) then return .bool true
    else return .bool (← boolean r.pos (← expr engine below r))
  | .coalesce l r p => do
    tick engine.limit p
    match ← expr engine below l with
    | .unit => expr engine below r
    | v => return v
  | .chain (.variable name p) ss => do
    let as ← accesses engine below ss
    tick engine.limit p
    let found ← lookup engine name p
    let (r, v) ← walk engine below as found.constant found.value
    putBack name found v
    return r
  | .chain (.this p) ss => do
    let as ← accesses engine below ss
    tick engine.limit p
    match (← machine).receiver with
    | none => fault .unboundReceiver p
    | some this =>
      let (r, v) ← walk engine below as this.constant this.value
      if !this.constant then
        update fun m => { m with receiver := some ⟨v, false⟩ }
      return r
  | .chain root ss => do
    let as ← accesses engine below ss
    let v ← expr engine below root
    return (← walk engine below as false v).1
  | .statement s => stmt engine below s
  | .closure f captures p => do
    tick engine.limit p
    return .pointer f (← capture engine captures)

def exprs (engine : Engine) (below : Below) : List Expr → Eval (List Value)
  | [] => ok []
  | e :: rest => do
    let v ← expr engine below e
    return v :: (← exprs engine below rest)

def fields (engine : Engine) (below : Below) : List Field → Eval (List (String × Value))
  | [] => ok []
  | .mk name e :: rest => do
    let v ← expr engine below e
    return (name, v) :: (← fields engine below rest)

def accesses (engine : Engine) (below : Below) : List Step → Eval (List Access)
  | [] => ok []
  | .property name p o :: rest => do
    return .property name p o :: (← accesses engine below rest)
  | .index e _ o :: rest => do
    let v ← expr engine below e
    return .index v e.pos o :: (← accesses engine below rest)
  | .method name args p o :: rest => do
    let vs ← exprs engine below args
    return .method name vs p o :: (← accesses engine below rest)

def stmt (engine : Engine) (below : Below) : Stmt → Eval Value
  | .skip _ => ok .unit
  | .expr e => do
    tick engine.limit e.pos
    expr engine below e
  | .declare name e constant p => do
    tick engine.limit p
    let v ← expr engine below e
    declare name v constant
    return .unit
  | .assign op (.variable name p) e q => do
    tick engine.limit q
    let v ← expr engine below e
    tick engine.limit p
    let found ← lookup engine name p
    if found.constant then fault (.constant name) p
    else
      assign name (← combine op found.value v q)
      return .unit
  | .assign op (.chain (.variable name p) ss) e q => do
    tick engine.limit q
    let v ← expr engine below e
    let as ← accesses engine below ss
    tick engine.limit p
    let found ← lookup engine name p
    if found.constant then fault (.constant name) p
    else
      assign name (← store op v q as found.value)
      return .unit
  | .assign op (.chain (.this p) ss) e q => do
    tick engine.limit q
    let v ← expr engine below e
    let as ← accesses engine below ss
    match (← machine).receiver with
    | none => fault .unboundReceiver p
    | some this =>
      if this.constant then fault (.constant "this") p
      else
        let after ← store op v q as this.value
        update fun m => { m with receiver := some ⟨after, false⟩ }
        return .unit
  | .assign op (.this p) e q => do
    tick engine.limit q
    let v ← expr engine below e
    match (← machine).receiver with
    | none => fault .unboundReceiver p
    | some this =>
      if this.constant then fault (.constant "this") p
      else
        let after ← combine op this.value v q
        update fun m => { m with receiver := some ⟨after, false⟩ }
        return .unit
  | .assign _ _ _ _ => ok .unit
  | .block body p => do
    tick engine.limit p
    enclosed (stmts engine below body)
  | .branch c yes no p => do
    tick engine.limit p
    if ← boolean c.pos (← expr engine below c) then stmt engine below yes
    else stmt engine below no
  | .select e cs p => do
    tick engine.limit p
    let v ← expr engine below e
    cases engine below (candidate cs v) cs
  | .loop body p => do
    tick engine.limit p
    rounds roundLimit (round (stmt engine below body))
  | .repeatWhile c body p => do
    tick engine.limit p
    rounds roundLimit do
      if ← boolean c.pos (← expr engine below c) then round (stmt engine below body)
      else return some .unit
  | .repeatAfter body c wanted p => do
    tick engine.limit p
    rounds roundLimit do
      match ← round (stmt engine below body) with
      | some v => return some v
      | none =>
        if (← boolean c.pos (← expr engine below c)) = wanted then return none
        else return some .unit
  | .each name counter e body p => do
    tick engine.limit p
    let (v, fixed) ← match e with
      | .variable n q => do
        tick engine.limit q
        let found ← lookup engine n q
        pure (found.value, found.constant && !found.own)
      | e => do pure (← expr engine below e, false)
    eachOf v e.pos fun item i => enclosed do
      match counter with
      | some c => declare c (.int i) false
      | none => ok ()
      declare name item fixed
      round (stmt engine below body)
  | .attempt body name handler p => do
    tick engine.limit p
    attempt (stmt engine below body) fun v => enclosed do
      match name with
      | some n => declare n v false
      | none => ok ()
      stmt engine below handler
  | .ret e p => do
    tick engine.limit p
    stop (.ret (← optional engine below e))
  | .throw e p => do
    tick engine.limit p
    fault (.thrown (← optional engine below e)) p
  | .leave e p => do
    tick engine.limit p
    stop (.leave (← optional engine below e))
  | .next p => do
    tick engine.limit p
    stop .next
  | .load e p => do
    tick engine.limit p
    match ← expr engine below e with
    | .string path => fault (.unknownModule path) e.pos
    | v => fault (.mismatch v.kind "string") e.pos

def optional (engine : Engine) (below : Below) : Option Expr → Eval Value
  | none => ok .unit
  | some e => expr engine below e

/-- The value of a row of statements: that of the last one. -/
def stmts (engine : Engine) (below : Below) : List Stmt → Eval Value
  | [] => ok .unit
  | [s] => stmt engine below s
  | s :: rest => do
    let _ ← stmt engine below s
    stmts engine below rest

/-- The value of the first case that is tried and whose condition holds, or of the default. -/
def cases (engine : Engine) (below : Below) (tried : Case → Bool) : List Case → Eval Value
  | [] => ok .unit
  | .mk patterns guard body :: rest => do
    let chosen ← if patterns.isEmpty then pure true
      else if tried (.mk patterns guard body) then do
        boolean guard.pos (← expr engine below guard)
      else pure false
    if chosen then stmt engine below body else cases engine below tried rest

end

def levelLimit : Nat := 8

def script (engine : Engine) : Nat → Below
  | 0, _ => stop (.fault (.here .stackOverflow none))
  | levels + 1, ss => stmts engine (script engine levels) ss

end Eval

inductive Ending where
  | value (v : Value)
  | failed (failure : Failure)
  | unfinished

def evaluate (engine : Engine) (body : List Stmt) (scope : List Binding) : Inquiry Ending :=
  (Eval.script engine (Eval.levelLimit + 1) body (Machine.start scope)).bind fun
    | (.ok v, _) | (.error (.ret v), _) | (.error (.exit v), _) => .done (.value v)
    | (.error (.fault failure), _) => .done (.failed failure)
    | (.error .unfinished, _) => .done .unfinished
    | (.error (.leave _), _) | (.error .next, _) => .done (.value .unit)

def Program.evaluate (program : Program) (limit : Nat) : Inquiry Ending :=
  Script.evaluate ⟨program.functions, limit, true⟩ program.body []

end Stencil.Script
