import Stencil.Text.Blank

/-!
# Lines of a document

A line whose first visible characters are `//!` carries generation code; every other line is
content.  Two forms of directive have a meaning of their own: `include(…)` names a document to be
spliced in, and a lone parenthesis opens or closes a capture.
-/

namespace Stencil

open Text

inductive Line where
  | directive (code : String)
  | include (expr : String)
  | captureOpen
  | captureClose
  | content (text : String)
  deriving DecidableEq, Repr

namespace Line

def after? : List Char → List Char → Option (List Char)
  | [], cs => some cs
  | p :: ps, c :: cs => if p = c then after? ps cs else none
  | _ :: _, [] => none

/-- What follows the marker `//!` and the white space around it. -/
def afterMarker? (cs : List Char) : Option (List Char) :=
  (after? ['/', '/', '!'] (trimLeft cs)).map trimLeft

/--
The code of a directive: all up to the end of the physical line.  A newline may follow it only if
nothing but white space comes after.
-/
def payload? (rest : List Char) : Option (List Char) :=
  if (rest.dropWhile (· ≠ '\n')).all isBlank then some (rest.takeWhile (· ≠ '\n')) else none

def includeTarget? (rest : List Char) : Option (List Char) := do
  let inner ← after? ['i', 'n', 'c', 'l', 'u', 'd', 'e', '('] rest
  match (inner.reverse.dropWhile isBlank) with
  | ')' :: expr => if expr.contains '\n' then none else some expr.reverse
  | _ => none

def classify (raw : String) : Line :=
  match afterMarker? raw.toList with
  | none => .content raw
  | some rest =>
    match payload? rest with
    | none => .content raw
    | some code =>
      match includeTarget? rest with
      | some expr => .include (String.ofList expr)
      | none =>
        match trimChars code with
        | ['('] => .captureOpen
        | [')'] => .captureClose
        | _ => .directive (String.ofList code)

def isContent : Line → Bool
  | .content _ => true
  | _ => false

/--
The generation code of a directive line.  A capture becomes a block expression with an accumulator
of its own.
-/
def code? : Line → Option String
  | .directive code => some code
  | .captureOpen => some "\x7b let code = \"\";"
  | .captureClose => some "code \x7d;"
  | .include _ | .content _ => none

def text? : Line → Option String
  | .directive t | .include t | .content t => some t
  | .captureOpen | .captureClose => none

end Line

end Stencil
