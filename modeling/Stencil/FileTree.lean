import Stencil.Path

/-!
# File trees

A finite tree of files, directories and symbolic links with a working directory.  Looking a path up
follows links and ends at the real place of a file, its list of component names from the root.
-/

namespace Stencil

/-- The real place of a file: the names from the root down to it. -/
abbrev Place := List String

inductive Node where
  | file (text : String)
  | binary
  | directory
  | link (target : String)
  deriving DecidableEq, Repr

inductive FileFault where
  | notFound
  | notDirectory
  | isDirectory
  | exists
  | tooManyLinks
  | notText
  deriving DecidableEq, Repr

def FileFault.message : FileFault → String
  | .notFound => "No such file or directory (os error 2)"
  | .notDirectory => "Not a directory (os error 20)"
  | .isDirectory => "Is a directory (os error 21)"
  | .exists => "File exists (os error 17)"
  | .tooManyLinks => "Too many levels of symbolic links (os error 40)"
  | .notText => "stream did not contain valid UTF-8"

/-- A tree of files.  The root is always a directory. -/
structure FileTree where
  working : Place
  entries : List (Place × Node)
  deriving Repr

namespace FileTree

def node? (tree : FileTree) (place : Place) : Option Node :=
  if place = [] then some .directory else tree.entries.lookup place

def put (tree : FileTree) (place : Place) (node : Node) : FileTree :=
  if (tree.entries.lookup place).isSome then
    { tree with entries := tree.entries.map fun e => if e.1 = place then (place, node) else e }
  else { tree with entries := tree.entries ++ [(place, node)] }

def linkLimit : Nat := 40

/--
Walks from `here` along `names`.  A last name that does not exist is for `final` to decide, or for
`behind` if a slash follows it.  Every name is looked up in a directory, also the empty name and the
dot.
-/
def walk (tree : FileTree) (final behind : Place → Except FileFault Place) :
    Nat → Place → List String → Except FileFault Place
  | _, here, [] => .ok here
  | links, here, name :: rest =>
    match tree.node? here with
    | some .directory =>
      if name = "" || name = "." then walk tree final behind links here rest
      else if name = ".." then walk tree final behind links here.dropLast rest
      else
        let next := here ++ [name]
        match tree.node? next with
        | none =>
          if rest = [] then final next
          else if rest.all (· = "") then behind next
          else .error .notFound
        | some (.link target) =>
          match links with
          | 0 => .error .tooManyLinks
          | links + 1 =>
            let start := if (Path.mk target).isAbsolute then [] else here
            walk tree final behind links start ((Path.mk target).pieces ++ rest)
        | some _ => walk tree final behind links next rest
    | some _ => .error .notDirectory
    | none => .error .notFound
  termination_by links _ names => (links, names.length)

def locate (tree : FileTree) (final : Place → Except FileFault Place) (path : Path)
    (behind : Place → Except FileFault Place := final) : Except FileFault Place :=
  if path.text = "" then .error .notFound
  else
    tree.walk final behind linkLimit (if path.isAbsolute then [] else tree.working) path.pieces

def realPlace (tree : FileTree) (path : Path) : Except FileFault Place :=
  tree.locate (fun _ => .error .notFound) path

def at? (tree : FileTree) (path : Path) : Option Node :=
  match tree.realPlace path with
  | .ok place => tree.node? place
  | .error _ => none

def pathExists (tree : FileTree) (path : Path) : Bool := (tree.at? path).isSome

def isFile (tree : FileTree) (path : Path) : Bool :=
  match tree.at? path with
  | some (.file _) | some .binary => true
  | _ => false

def isDirectory (tree : FileTree) (path : Path) : Bool :=
  tree.at? path == some .directory

def read (tree : FileTree) (path : Path) : Except FileFault String := do
  let place ← tree.realPlace path
  match tree.node? place with
  | some (.file text) => .ok text
  | some .directory => .error .isDirectory
  | some .binary => .error .notText
  | _ => .error .notFound

/-- The text of a place as a path: from the working directory if it lies in it, else from the root. -/
def pathOf (tree : FileTree) (place : Place) : Path :=
  let n := tree.working.length
  if place.take n = tree.working ∧ n < place.length then
    ⟨String.intercalate "/" (place.drop n)⟩
  else ⟨"/" ++ String.intercalate "/" place⟩

/-- The real path of an existing file, or the path as it is. -/
def canonical (tree : FileTree) (path : Path) : Path :=
  match tree.realPlace path with
  | .ok place => tree.pathOf place
  | .error _ => path

/-- The directory or link at a place, which a path may lead through. -/
def passage? (tree : FileTree) (place : Place) : Option Node :=
  match tree.node? place with
  | some .directory => some .directory
  | some (.link target) => some (.link target)
  | _ => none

/-- Where a write to a path goes; a missing file is not made where a slash follows its name. -/
def receiver (tree : FileTree) (path : Path) : Except FileFault Place := do
  let place ← tree.locate .ok path fun _ => .error .isDirectory
  if (tree.passage? place).isSome then .error .isDirectory else .ok place

def write (tree : FileTree) (path : Path) (text : String) : Except FileFault FileTree :=
  (tree.receiver path).map fun place => tree.put place (.file text)

/-- Whether the last name of a path is that of a link; no directory is made in its place. -/
def endsInLink (tree : FileTree) (path : Path) : Bool :=
  match path.pieces.reverse.dropWhile (· = "") with
  | [] => false
  | last :: above =>
    let start := if path.isAbsolute then [] else tree.working
    match tree.walk .ok .ok linkLimit start above.reverse with
    | .error _ => false
    | .ok place =>
      match tree.node? (place ++ [last]) with
      | some (.link _) => true
      | _ => false

def createDirectory (tree : FileTree) (path : Path) : Except FileFault FileTree := do
  if tree.endsInLink path then .error .exists
  else
    let place ← tree.locate .ok path
    if (tree.node? place).isSome then .error .exists else .ok (tree.put place .directory)

/--
Creates a directory and those above it.  `steps` bounds the count of directories on the way; an
existing directory is left as it is, and what was created before a fault stays.
-/
def createDirectories (tree : FileTree) (path : Path) : Nat → FileTree × Option FileFault
  | 0 => (tree, some .notFound)
  | steps + 1 =>
    if path.text = "" then (tree, none)
    else
      match tree.createDirectory path with
      | .ok tree => (tree, none)
      | .error .notFound =>
        match path.parent? with
        | none => (tree, some .notFound)
        | some parent =>
          match tree.createDirectories parent steps with
          | (tree, some e) => (tree, some e)
          | (tree, none) =>
            match tree.createDirectory path with
            | .ok tree => (tree, none)
            | .error e => if tree.isDirectory path then (tree, none) else (tree, some e)
      | .error e => if tree.isDirectory path then (tree, none) else (tree, some e)

def makeAll (tree : FileTree) (path : Path) : FileTree × Option FileFault :=
  tree.createDirectories path (path.text.length + 1)

def createAll (tree : FileTree) (path : Path) : Except FileFault FileTree :=
  match tree.makeAll path with
  | (tree, none) => .ok tree
  | (_, some e) => .error e

/-! ## Trees of files that exist -/

def absolute (place : Place) : String := "/" ++ String.intercalate "/" place

def placeOf (path : Path) : Place := path.pieces.filter (· ≠ "")

/-- The place that a path names if no directory on the way is a link. -/
def plainPlace (tree : FileTree) (path : Path) : Place :=
  path.pieces.foldl
    (fun here name =>
      if name = "" || name = "." then here
      else if name = ".." then here.dropLast
      else here ++ [name])
    (if path.isAbsolute then [] else tree.working)

def makeRoom (tree : FileTree) (place : Place) : FileTree :=
  (List.range place.length).foldl
    (fun tree n =>
      let above := place.take (n + 1)
      if (tree.node? above).isSome then tree else tree.put above .directory)
    tree

/--
Adds a file that a path was found to lead to.  It stands at its real place; where the path does not
lead there by itself, a link does.
-/
def found (tree : FileTree) (path : Path) (real : Place) (node : Node) : FileTree :=
  let tree := (tree.makeRoom real.dropLast).put real node
  if (tree.realPlace path).toOption = some real then tree
  else
    let plain := tree.plainPlace path
    (tree.makeRoom plain.dropLast).put plain (.link (absolute real))

def changes (before after : FileTree) : List (Place × Node) :=
  after.entries.filter fun e => before.entries.lookup e.1 ≠ some e.2

end FileTree

end Stencil
