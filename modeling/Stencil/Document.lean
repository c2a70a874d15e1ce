import Stencil.Fault

/-!
# Documents

A document is a text with a path.  It is split at newlines; the piece behind the last newline is a
line too, so that joining the lines gives the text back.
-/

namespace Stencil

structure Document where
  path : Path
  text : String
  deriving DecidableEq, Repr

structure SourceLine where
  text : String
  origin : Path
  /-- The number of the line in its document, counted from one. -/
  number : Nat
  terminated : Bool
  deriving DecidableEq, Repr

namespace SourceLine

def location (line : SourceLine) : String := line.origin.text ++ ":" ++ toString line.number

end SourceLine

namespace Document

/-- The pieces of a text between its newlines; there is always one. -/
def pieces : List Char → List (List Char)
  | [] => [[]]
  | c :: r =>
    if c = '\n' then [] :: pieces r
    else
      match pieces r with
      | [] => [[c]]
      | piece :: rest => (c :: piece) :: rest

def number (path : Path) : Nat → List (List Char) → List SourceLine
  | _, [] => []
  | n, [piece] => [⟨String.ofList piece, path, n, false⟩]
  | n, piece :: rest => ⟨String.ofList piece, path, n, true⟩ :: number path (n + 1) rest

def lines (document : Document) : List SourceLine :=
  number document.path 1 (pieces document.text.toList)

/-- Gives the last line its ending, or drops it if it is empty. -/
def closeLast (terminated : Bool) : List SourceLine → List SourceLine
  | [] => []
  | [line] => if line.text = "" then [] else [{ line with terminated }]
  | line :: rest => line :: closeLast terminated rest

/--
The lines that take the place of an include directive.  A final newline of the document stands for
the newline of the directive.
-/
def splice (document : Document) (terminated : Bool) : List SourceLine :=
  closeLast terminated document.lines

def read (tree : FileTree) (path : Path) : Except Fault Document :=
  if tree.isFile path then
    match tree.read path with
    | .ok text => .ok ⟨path, text⟩
    | .error cause => .error (.file cause)
  else .error (.missingDocument path)

end Document

end Stencil
