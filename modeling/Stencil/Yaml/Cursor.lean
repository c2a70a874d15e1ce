/-!
# A place in a YAML text

Where a reader stands in a text, with its line and column, and the classes of characters that
matter there.
-/

namespace Stencil.Yaml

structure Cursor where
  rest : List Char
  line : Nat
  column : Nat
  index : Nat

def isBreak (c : Char) : Bool :=
  c = '\n' || c = '\r' || c = '\x85' || c = '\u2028' || c = '\u2029'

def isBlank (c : Char) : Bool := c = ' ' || c = '\t'

namespace Cursor

def peek? (c : Cursor) : Option Char := c.rest.head?

def sees (c : Cursor) (x : Char) : Bool := c.peek? = some x

def ended (c : Cursor) : Bool := c.rest.isEmpty

def atBlank (c : Cursor) : Bool := (c.peek?.map isBlank).getD false

def atBreak (c : Cursor) : Bool := (c.peek?.map isBreak).getD false

/-- Whether no visible character follows `skip` characters further on. -/
def clearAfter (c : Cursor) (skip : Nat) : Bool :=
  match c.rest.drop skip with
  | [] => true
  | x :: _ => isBlank x || isBreak x

/-- One character further, which is no line break. -/
def next (c : Cursor) : Cursor :=
  { c with rest := c.rest.drop 1, column := c.column + 1, index := c.index + 1 }

def skip (c : Cursor) (n : Nat) : Cursor :=
  { c with rest := c.rest.drop n, column := c.column + n, index := c.index + n }

def lineBreak (c : Cursor) : List Char × Cursor :=
  let past (n : Nat) : Cursor := ⟨c.rest.drop n, c.line + 1, 0, c.index + n⟩
  match c.rest with
  | '\r' :: '\n' :: _ => (['\n'], past 2)
  | '\r' :: _ | '\n' :: _ | '\x85' :: _ => (['\n'], past 1)
  | b :: _ => ([b], past 1)
  | [] => ([], c)

def skipWhile (c : Cursor) (p : Char → Bool) : Cursor := c.skip (c.rest.takeWhile p).length

/-- Whether a document marker of three characters `x` stands at the beginning of a line. -/
def atMarker (c : Cursor) (x : Char) : Bool :=
  c.column = 0 && c.rest.take 3 == [x, x, x] && c.clearAfter 3

end Cursor

end Stencil.Yaml
