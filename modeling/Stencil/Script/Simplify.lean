import Stencil.Script.Syntax
import Stencil.Script.Operator

/-!
# Simplification

Before a script runs, what cannot have an effect is taken out of it: statements that only read
variables and literals, conditionals with empty bodies, and operands that a literal decides.  A
variable that is read only there is never looked up.  The last statement of a block whose value is
used stays, and so do loops and selections.
-/

namespace Stencil.Script

namespace Simplify

mutual

/-- Whether an expression only puts variables and literals together. -/
def pureExpr : Expr → Bool
  | .const .. | .variable .. => true
  | .interpolated parts _ => pureExprs parts
  | .array items _ => pureExprs items
  | .map fields _ => pureFields fields
  | .both l r _ | .either l r _ | .coalesce l r _ => pureExpr l && pureExpr r
  | .statement s => pureStmt s
  | .this _ | .call .. | .operator .. | .chain .. | .closure .. => false

def pureExprs : List Expr → Bool
  | [] => true
  | e :: rest => pureExpr e && pureExprs rest

def pureFields : List Field → Bool
  | [] => true
  | .mk _ e :: rest => pureExpr e && pureFields rest

def pureStmt : Stmt → Bool
  | .skip _ => true
  | .expr e => pureExpr e
  | .block body _ => pureStmts body
  | .branch c yes no _ => pureExpr c && pureStmt yes && pureStmt no
  | .attempt body _ handler _ => pureStmt body && pureStmt handler
  | _ => false

def pureStmts : List Stmt → Bool
  | [] => true
  | s :: rest => pureStmt s && pureStmts rest

end

/-- Takes statements without effect out; the last one stays if the value is used. -/
def prune (keep : Bool) : List Stmt → List Stmt
  | [] => []
  | [s] => if !keep && pureStmt s then [] else [s]
  | s :: rest => if pureStmt s then prune keep rest else s :: prune keep rest

def isEmpty : Stmt → Bool
  | .skip _ => true
  | .block [] _ => true
  | _ => false

def fold (op : String) (args : List Expr) (pos : Pos) : Expr :=
  match args with
  | [.const a _, .const b _] =>
    match Operator.apply op [a, b] with
    | some (.ok v) => .const v pos
    | _ => .operator op args pos
  | _ => .operator op args pos

def combinable : List String := ["+", "-", "*", "/", "%", "**", "<<", ">>", "&", "|", "^"]

def fieldValue? (name : String) : List Field → Option Expr
  | [] => none
  | .mk n e :: rest => if n = name then some e else fieldValue? name rest

/-- A step into a literal container of which every other item has no effect. -/
def pick (root : Expr) (steps : List Step) : Expr :=
  match root, steps with
  | .map fields pos, [.property name _ _] =>
    if pureFields fields then (fieldValue? name fields).getD (.const .unit pos)
    else .chain root steps
  | .map fields pos, [.index (.const (.string name) _) _ _] =>
    if pureFields fields then (fieldValue? name fields).getD (.const .unit pos)
    else .chain root steps
  | .array items _, [.index (.const (.int i) _) _ _] =>
    let at_ : Int := if i < 0 then items.length + i else i
    if pureExprs items && 0 ≤ at_ then (items[at_.toNat]?).getD (.chain root steps)
    else .chain root steps
  | _, _ => .chain root steps

def branch (keep : Bool) (c : Expr) (yes no : Stmt) (pos : Pos) : Stmt :=
  if isEmpty yes && isEmpty no then
    if keep then .block [.expr c, .skip pos] pos else .expr c
  else .branch c yes no pos

/-- An assignment whose value begins with its own target. -/
def assign (op : Option String) (target value : Expr) (pos : Pos) : Stmt :=
  match op, target, value with
  | none, .variable name _, .operator o [.variable name' _, e] p =>
    if name = name' && combinable.contains o then .assign (some o) target e p
    else .assign op target value pos
  | _, _, _ => .assign op target value pos

mutual

def expr : Expr → Expr
  | .const v p => .const v p
  | .variable n p => .variable n p
  | .this p => .this p
  | .closure f c p => .closure f c p
  | .interpolated parts p => .interpolated (exprs parts) p
  | .array items p => .array (exprs items) p
  | .map fs p => .map (fields fs) p
  | .call n args p => .call n (exprs args) p
  | .operator op args p => fold op (exprs args) p
  | .both l r p =>
    match expr l, expr r with
    | .const (.bool true) _, r => r
    | .const (.bool false) q, _ => .const (.bool false) q
    | l, .const (.bool true) _ => l
    | l, r => .both l r p
  | .either l r p =>
    match expr l, expr r with
    | .const (.bool false) _, r => r
    | .const (.bool true) q, _ => .const (.bool true) q
    | l, .const (.bool false) _ => l
    | l, r => .either l r p
  | .coalesce l r p =>
    match expr l, expr r with
    | .const .unit _, r => r
    | .const v q, _ => .const v q
    | l, r => .coalesce l r p
  | .chain root ss => pick (expr root) (steps ss)
  | .statement s => .statement (stmt true s)

def exprs : List Expr → List Expr
  | [] => []
  | e :: rest => expr e :: exprs rest

def fields : List Field → List Field
  | [] => []
  | .mk n e :: rest => .mk n (expr e) :: fields rest

def steps : List Step → List Step
  | [] => []
  | .property n p o :: rest => .property n p o :: steps rest
  | .method n args p o :: rest => .method n (exprs args) p o :: steps rest
  | .index e p o :: rest => .index (expr e) p o :: steps rest

def option : Option Expr → Option Expr
  | none => none
  | some e => some (expr e)

/-- Simplifies a statement; `keep` tells whether its value is used. -/
def stmt (keep : Bool) : Stmt → Stmt
  | .skip p => .skip p
  | .expr e => .expr (expr e)
  | .declare n v c p => .declare n (expr v) c p
  | .assign op t v p => assign op (expr t) (expr v) p
  | .block body p => .block (prune keep (stmts keep body)) p
  | .branch c yes no p => branch keep (expr c) (stmt keep yes) (stmt keep no) p
  | .select s cs p => .select (expr s) (cases cs) p
  | .loop body p => .loop (stmt false body) p
  | .repeatWhile c body p => .repeatWhile (expr c) (stmt false body) p
  | .repeatAfter body c w p => .repeatAfter (stmt false body) (expr c) w p
  | .each n i s body p => .each n i (expr s) (stmt false body) p
  | .attempt body n h p =>
    let body := stmt false body
    if pureStmt body then body else .attempt body n (stmt false h) p
  | .ret v p => .ret (option v) p
  | .throw v p => .throw (option v) p
  | .leave v p => .leave (option v) p
  | .next p => .next p
  | .load e p => .load (expr e) p

def stmts (keep : Bool) : List Stmt → List Stmt
  | [] => []
  | s :: rest => stmt keep s :: stmts keep rest

def cases : List Case → List Case
  | [] => []
  | .mk vs g body :: rest => .mk vs (expr g) (stmt true body) :: cases rest

end

def body (ss : List Stmt) : List Stmt := prune true (stmts true ss)

end Simplify

def Program.simplify (p : Program) : Program where
  functions := p.functions.map fun f => { f with body := Simplify.stmt true f.body }
  body := Simplify.body p.body

end Stencil.Script
