import Stencil.Script.Token
import Stencil.Script.Value

/-!
# Syntax of scripts

Expressions and statements with the places that faults are reported at.  A chain of properties,
indexes and method calls is a root with a row of steps, so that a change at its end can be written
back to the root.
-/

namespace Stencil.Script

mutual

inductive Expr where
  | const (value : Value) (pos : Pos)
  | interpolated (parts : List Expr) (pos : Pos)
  | array (items : List Expr) (pos : Pos)
  | map (fields : List Field) (pos : Pos)
  | variable (name : String) (pos : Pos)
  | this (pos : Pos)
  | call (name : String) (args : List Expr) (pos : Pos)
  /-- An operator on one or two operands, with the place that its faults are reported at. -/
  | operator (name : String) (args : List Expr) (pos : Pos)
  | both (left right : Expr) (pos : Pos)
  | either (left right : Expr) (pos : Pos)
  | coalesce (left right : Expr) (pos : Pos)
  | chain (root : Expr) (steps : List Step)
  | statement (stmt : Stmt)
  | closure (function : String) (captures : List (String × Pos)) (pos : Pos)

inductive Field where
  | mk (name : String) (value : Expr)

/-- A step of a chain.  An optional step ends the chain with a unit where it starts from one. -/
inductive Step where
  | property (name : String) (pos : Pos) (optional : Bool)
  | method (name : String) (args : List Expr) (pos : Pos) (optional : Bool)
  | index (index : Expr) (pos : Pos) (optional : Bool)

inductive Stmt where
  | skip (pos : Pos)
  | expr (e : Expr)
  | declare (name : String) (value : Expr) (constant : Bool) (pos : Pos)
  | assign (op : Option String) (target value : Expr) (pos : Pos)
  | block (body : List Stmt) (pos : Pos)
  | branch (condition : Expr) (yes no : Stmt) (pos : Pos)
  | select (subject : Expr) (cases : List Case) (pos : Pos)
  | loop (body : Stmt) (pos : Pos)
  | repeatWhile (condition : Expr) (body : Stmt) (pos : Pos)
  /-- Runs the body first and again as long as the condition has the value `wanted`. -/
  | repeatAfter (body : Stmt) (condition : Expr) (wanted : Bool) (pos : Pos)
  | each (name : String) (counter : Option String) (subject : Expr) (body : Stmt) (pos : Pos)
  | attempt (body : Stmt) (name : Option String) (handler : Stmt) (pos : Pos)
  | ret (value : Option Expr) (pos : Pos)
  | throw (value : Option Expr) (pos : Pos)
  | leave (value : Option Expr) (pos : Pos)
  | next (pos : Pos)
  | load (path : Expr) (pos : Pos)

/-- A case of a selection; one without patterns is the default. -/
inductive Case where
  | mk (patterns : List Value) (guard : Expr) (body : Stmt)

end

instance : Inhabited Expr := ⟨.const .unit Pos.start⟩
instance : Inhabited Stmt := ⟨.skip Pos.start⟩

structure Function where
  name : String
  params : List String
  body : Stmt
  deriving Inhabited

structure Program where
  functions : List Function
  body : List Stmt
  deriving Inhabited

namespace Stmt

def pos : Stmt → Pos
  | .skip p | .declare _ _ _ p | .assign _ _ _ p | .block _ p | .branch _ _ _ p | .select _ _ p
  | .loop _ p | .repeatWhile _ _ p | .repeatAfter _ _ _ p | .each _ _ _ _ p | .attempt _ _ _ p
  | .ret _ p | .throw _ p | .leave _ p | .next p | .load _ p => p
  | .expr e => exprPos e
where
  exprPos : Expr → Pos
    | .const _ p | .interpolated _ p | .array _ p | .map _ p | .variable _ p | .this p
    | .call _ _ p | .operator _ _ p | .closure _ _ p => p
    | .both l _ _ | .either l _ _ | .coalesce l _ _ => exprPos l
    | .chain root _ => exprPos root
    | .statement s => pos s

def endsItself : Stmt → Bool
  | .block .. | .branch .. | .select .. | .loop .. | .repeatWhile .. | .each .. | .attempt .. => true
  | _ => false

def isSkip : Stmt → Bool
  | .skip _ => true
  | _ => false

end Stmt

def Expr.pos (e : Expr) : Pos := Stmt.pos.exprPos e

end Stencil.Script
