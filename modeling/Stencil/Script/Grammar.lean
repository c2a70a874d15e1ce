import Stencil.Script.Syntax
import Stencil.Script.Lexer

/-!
# Reading scripts: the tools

The state of a reader of tokens, the precedence of operators, and the checks that tell a misplaced
literal or assignment while a script is read.
-/

namespace Stencil.Script

structure SyntaxFault where
  reason : String
  pos : Pos
  deriving DecidableEq, Repr, Inhabited

structure Reading where
  rest : List Placed
  /-- The variables in sight, innermost first, and whether each is constant. -/
  vars : List (String × Bool)
  /-- The names that were read while no variable of the name was in sight, in order. -/
  free : List (String × Pos)
  functions : List Function

abbrev Reader := StateT Reading (Except SyntaxFault)

structure Around where
  top : Bool
  inLoop : Bool
  inFunction : Bool
  inPattern : Bool
  depth : Nat
  limit : Nat

namespace Reader

variable {α : Type}

def fail (reason : String) (pos : Pos) : Reader α := fun _ => .error ⟨reason, pos⟩

def refuse (reason : String) (p : Placed) : Reader α :=
  match p.token with
  | .bad own => fail own p.pos
  | _ => fail reason p.pos

def missing (sign purpose : String) : String := "Expecting '" ++ sign ++ "' " ++ purpose

def incomplete : String := "Script is incomplete"

def tooDeep : Reader α := fun r =>
  .error ⟨"Expression exceeds maximum complexity", (r.rest.headD ⟨.ended, Pos.start⟩).pos⟩

def peek : Reader Placed := fun r => .ok (r.rest.headD ⟨.ended, Pos.start⟩, r)

/-- Takes the next token.  The last one stays. -/
def take : Reader Placed := fun r =>
  match r.rest with
  | [] => .ok (⟨.ended, Pos.start⟩, r)
  | [t] => .ok (t, r)
  | t :: rest => .ok (t, { r with rest })

def accept (t : Token) : Reader Bool := do
  if (← peek).token = t then
    let _ ← take
    return true
  else return false

def expect (t : Token) (purpose : String) : Reader Pos := do
  let p ← take
  if p.token = t then return p.pos else refuse (missing t.spelling purpose) p

def sees (ts : List Token) : Reader Bool := do return ts.contains (← peek).token

def enclosed (reader : Reader α) : Reader α := do
  let vars := (← get).vars
  let a ← reader
  modify fun r => { r with vars }
  return a

def bind (name : String) (constant : Bool) : Reader Unit :=
  modify fun r => { r with vars := (name, constant) :: r.vars }

def mention (name : String) (pos : Pos) : Reader Unit :=
  modify fun r =>
    if (r.vars.any (·.1 = name)) || r.free.any (·.1 = name) then r
    else { r with free := r.free ++ [(name, pos)] }

def reservedReason (word : String) : String := "'" ++ word ++ "' is a reserved keyword"

def variableName : Reader (String × Pos) := do
  let p ← take
  match p.token with
  | .name n => return (n, p.pos)
  | .reserved w => fail (reservedReason w) p.pos
  | _ => refuse "Expecting name of a variable" p

end Reader

namespace Around

def deeper (a : Around) : Reader Around := do
  if a.limit ≤ a.depth then Reader.tooDeep
  else return { a with depth := a.depth + 1 }

def inner (a : Around) : Around := { a with top := false }

end Around

/-! ## Operators -/

/-- How tightly an operator binds; the words and signs that are none bind not at all. -/
def precedence : Token → Nat
  | .sign s =>
    if s = "||" || s = "^" || s = "|" then 30
    else if s = "&&" || s = "&" then 60
    else if s = "==" || s = "!=" then 90
    else if s = "!in" then 110
    else if s = "<" || s = "<=" || s = ">" || s = ">=" then 130
    else if s = "??" then 135
    else if s = ".." || s = "..=" then 140
    else if s = "+" || s = "-" then 150
    else if s = "*" || s = "/" || s = "%" then 180
    else if s = "**" then 190
    else if s = "<<" || s = ">>" then 210
    else 0
  | .word w => if w = "in" then 110 else 0
  | _ => 0

def groupsRight (t : Token) : Bool := t = .sign "**"

def assignmentOperator? : Token → Option String
  | .sign s =>
    if s = "+=" then some "+" else if s = "-=" then some "-" else if s = "*=" then some "*"
    else if s = "/=" then some "/" else if s = "%=" then some "%" else if s = "**=" then some "**"
    else if s = "<<=" then some "<<" else if s = ">>=" then some ">>" else if s = "&=" then some "&"
    else if s = "|=" then some "|" else if s = "^=" then some "^" else none
  | _ => none

/-! ## Checks on expressions -/

def Expr.sort? : Expr → Option String
  | .const v _ =>
    match v with
    | .unit => some "()"
    | .bool _ => some "a boolean"
    | .int _ => some "a number"
    | .float _ => some "a floating-point number"
    | .char _ => some "a character"
    | .string _ => some "a string"
    | v => some v.kind
  | .interpolated .. => some "a string"
  | .array .. => some "an array"
  | .map .. => some "an object map"
  | _ => none

/-- Whether an expression may be a condition: it is no literal other than a boolean. -/
def Expr.maybeBool : Expr → Bool
  | .const (.bool _) _ => true
  | e => e.sort?.isNone

def Expr.maybeIterable : Expr → Bool
  | .const v _ =>
    match v with
    | .unit | .bool _ | .int _ | .float _ | .char _ => false
    | _ => true
  | .map .. => false
  | _ => true

def Expr.refused {α : Type} (e : Expr) (expected : String) : Reader α :=
  Reader.fail ("Expecting " ++ expected ++ ", not " ++ e.sort?.getD "this expression") e.pos

def Expr.isNoIndex : Expr → Bool
  | .const .unit _ | .const (.bool _) _ | .const (.float _) _ | .const (.char _) _ | .array ..
  | .map .. | .both .. | .either .. => true
  | _ => false

def Expr.isText : Expr → Bool
  | .const (.string _) _ | .interpolated .. => true
  | _ => false

def Expr.refusesIndex (root index : Expr) : Bool :=
  match root with
  | .map .. => index.isNoIndex || (match index with | .const (.int _) _ => true | _ => false)
  | .array .. | .const (.int _) _ | .const (.string _) _ | .interpolated .. =>
    index.isNoIndex || index.isText
  | .const .. | .both .. | .either .. => true
  | _ => index.isNoIndex

mutual

def Expr.literal? : Expr → Option Value
  | .const v _ => some v
  | .array items _ => (literals? items).map .array
  | .map fields _ => (literalFields? fields).map fun fs => .map (Fields.ofList fs)
  | .operator op args _ =>
    match args with
    | [.const (.int a) _, .const (.int b) _] =>
      if op = ".." then some (.range a b false)
      else if op = "..=" then some (.range a b true)
      else none
    | _ => none
  | _ => none

def literals? : List Expr → Option (List Value)
  | [] => some []
  | e :: rest => do
    let v ← e.literal?
    return v :: (← literals? rest)

def literalFields? : List Field → Option (List (String × Value))
  | [] => some []
  | .mk name e :: rest => do
    let v ← e.literal?
    return (name, v) :: (← literalFields? rest)

end

/-- The last step of a chain is no method call, and none before it is. -/
def assignable : List Step → Bool
  | [] => true
  | .method .. :: _ => false
  | _ :: rest => assignable rest

def assignment (op : Option String) (target value : Expr) (pos : Pos) : Reader Stmt := do
  let vars := (← get).vars
  match target with
  | .variable name p =>
    match vars.lookup name with
    | some true => Reader.fail ("Cannot assign to constant '" ++ name ++ "'") p
    | _ => return .assign op target value pos
  | .chain root steps =>
    if assignable steps then
      match root with
      | .variable .. | .this .. => return .assign op target value pos
      | e => Reader.fail unassignable e.pos
    else Reader.fail unassignable target.pos
  | .this _ => return .assign op target value pos
  | .const _ p => Reader.fail "Cannot assign to a constant value" p
  | e => Reader.fail unassignable e.pos
where
  unassignable : String := "Expression cannot be assigned to"

end Stencil.Script
