/-!
# Paths

Paths are texts whose components are separated by slashes.  Taking a path apart looks through
repeated and trailing slashes and through `.` components other than a leading one; joining only
concatenates.
-/

namespace Stencil

structure Path where
  text : String
  deriving DecidableEq, Repr, Inhabited

namespace Path

/-- The count of leading characters that are no ordinary component: a root slash or a leading dot. -/
def leading : List Char → Nat
  | '/' :: _ => 1
  | ['.'] => 1
  | '.' :: '/' :: _ => 1
  | _ => 0

def lastComponent (reversed : List Char) : List Char × List Char :=
  ((reversed.takeWhile (· ≠ '/')).reverse, (reversed.dropWhile (· ≠ '/')).drop 1)

def trimBody : List Char → List Char
  | '/' :: r => trimBody r
  | ['.'] => []
  | '.' :: '/' :: r => trimBody ('/' :: r)
  | r => r

/-- The leading part of a path and the body behind it, reversed and without what is looked through. -/
def split (path : Path) : List Char × List Char :=
  let cs := path.text.toList
  (cs.take (leading cs), trimBody (cs.drop (leading cs)).reverse)

/-- The directory part of a path; a root has none, and neither has the empty path. -/
def parent? (path : Path) : Option Path :=
  match path.split with
  | ([], []) => none
  | (['/'], []) => none
  | (_, []) => some ⟨""⟩
  | (lead, body) =>
    some ⟨String.ofList (lead ++ (trimBody (lastComponent body).2).reverse)⟩

def fileName? (path : Path) : Option String :=
  match path.split with
  | (_, []) => none
  | (_, body) =>
    let name := (lastComponent body).1
    if name = ['.', '.'] then none else some (String.ofList name)

/-- What follows the last dot of the file name; a leading dot begins no extension. -/
def extension? (path : Path) : Option String := do
  let name ← path.fileName?
  let reversed := name.toList.reverse
  let tail := reversed.takeWhile (· ≠ '.')
  if tail.length + 1 < reversed.length then some (String.ofList tail.reverse) else none

def isAbsolute (path : Path) : Bool := path.text.toList.head? = some '/'

/-- A path taken relative to a directory; an absolute path stays as it is. -/
def join (dir : Path) (path : String) : Path :=
  if (Path.mk path).isAbsolute then ⟨path⟩
  else if dir.text = "" || dir.text.toList.getLast? = some '/' then ⟨dir.text ++ path⟩
  else ⟨dir.text ++ "/" ++ path⟩

def directory (path : Path) : Path :=
  match path.parent? with
  | some parent => if parent.text = "" then ⟨"."⟩ else parent
  | none => ⟨"."⟩

/-- The pieces of a text between its slashes; there is always one. -/
def between : List Char → List (List Char)
  | [] => [[]]
  | c :: r =>
    if c = '/' then [] :: between r
    else
      match between r with
      | [] => [[c]]
      | piece :: rest => (c :: piece) :: rest

def pieces (path : Path) : List String := (between path.text.toList).map String.ofList

end Path

end Stencil
