/-!
# Tokens of the script language

The tokens, their places in a script, and the words that the language keeps for itself.
-/

namespace Stencil.Script

/-- A place in a script: line and column, counted from one. -/
structure Pos where
  line : Nat
  column : Nat
  deriving DecidableEq, Repr, Inhabited

namespace Pos

def start : Pos := ⟨1, 1⟩

def right (p : Pos) : Pos := { p with column := p.column + 1 }

def down (p : Pos) : Pos := ⟨p.line + 1, 1⟩

def past (p : Pos) (c : Char) : Pos := if c = '\n' then p.down else p.right

end Pos

inductive Token where
  | int (value : Int)
  | float (value : Float)
  | char (value : Char)
  | text (value : String)
  /-- The piece of a back-tick string before an expression. -/
  | opening (value : String)
  | name (name : String)
  | word (word : String)
  | sign (sign : String)
  /-- A word that is kept for later or names a function of the language. -/
  | reserved (word : String)
  | bad (reason : String)
  | ended
  deriving DecidableEq, Repr, Inhabited

structure Placed where
  token : Token
  pos : Pos
  deriving DecidableEq, Repr, Inhabited

/-! ## Words -/

def grammarWords : List String := [
  "true", "false", "let", "const", "if", "else", "switch", "do", "while", "until", "loop", "for",
  "in", "continue", "break", "return", "throw", "try", "catch", "fn", "private", "import",
  "export", "as"]

def callableWords : List String := [
  "print", "debug", "type_of", "eval", "Fn", "call", "curry", "is_def_fn", "is_def_var",
  "is_shared"]

def methodWords : List String := ["call", "curry", "type_of", "is_shared"]

/-- The reserved words that cannot be used at all, except for `this` inside functions. -/
def idleWords : List String := [
  "this", "public", "protected", "super", "new", "use", "module", "package", "var", "static",
  "shared", "with", "is", "goto", "match", "case", "default", "void", "null", "nil", "spawn",
  "thread", "go", "sync", "async", "await", "yield"]

def isNameStart (c : Char) : Bool := c.isAlpha || c = '_'

def isNamePart (c : Char) : Bool := c.isAlphanum || c = '_'

/-- Whether a letter comes before all digits of a name. -/
def letterFirst : List Char → Bool
  | [] => false
  | c :: r => if c = '_' then letterFirst r else c.isAlpha

def tokenOfWord (w : String) : Token :=
  if w = "_" then .sign "_"
  else if grammarWords.contains w then .word w
  else if callableWords.contains w || idleWords.contains w then .reserved w
  else if letterFirst w.toList then .name w
  else .bad ("Variable name is not proper: '" ++ w ++ "'")

def Token.spelling : Token → String
  | .word w | .reserved w => w
  | .sign s => s
  | .name n => n
  | _ => ""

/--
Whether a sign behind this token stands between two operands.  Behind all others a sign belongs to
the operand that follows it.
-/
def Token.endsOperand : Token → Bool
  | .int _ | .float _ | .char _ | .text _ | .name _ | .reserved _ => true
  | .word w => w = "true" || w = "false"
  | .sign s => s = ")" || s = "]" || s = "\x7d" || s = "()" || s = "_"
  | .opening _ | .bad _ | .ended => false

end Stencil.Script
