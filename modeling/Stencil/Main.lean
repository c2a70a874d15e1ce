import Stencil.Command.Demand

/-!
# The program

Loads the files that a command looks at, carries the command out on the tree of these files, and
writes back what changed.  All decisions are made in `Command.Outcome`.
-/

namespace Stencil.Program

open Stencil.Command

def nodeOf (content : Except IO.Error ByteArray) : Node :=
  match content with
  | .ok bytes =>
    match String.fromUTF8? bytes with
    | some text => .file text
    | none => .binary
  | .error _ => .directory

def fetch (tree : FileTree) (path : Path) : IO FileTree := do
  let .ok real ← (IO.FS.realPath path.text).toBaseIO | return tree
  let content ← (IO.FS.readBinFile path.text).toBaseIO
  return tree.found path (FileTree.placeOf ⟨toString real⟩) (nodeOf content)

/-- Adds files to a tree until it has all that the command looks at. -/
partial def load (args : List String) (set : Variables) (seen : List Path) (tree : FileTree) :
    IO FileTree := do
  let fresh := (Demand.ofArguments args set tree).filter (!seen.contains ·)
  if fresh.isEmpty then return tree
  load args set (seen ++ fresh) (← fresh.foldlM fetch tree)

def store (place : Place) (node : Node) : IO Unit :=
  match node with
  | .file text => IO.FS.writeFile (FileTree.absolute place) text
  | .directory => IO.FS.createDirAll (FileTree.absolute place)
  | .binary | .link _ => pure ()

def environment (names : List String) : IO Variables :=
  names.filterMapM fun name => do return (← IO.getEnv name).map (name, ·)

def complain (trouble : List String) : IO Unit :=
  match trouble with
  | [] => pure ()
  | [message] => IO.eprintln ("Error: " ++ message)
  | message :: causes => do
    IO.eprintln ("Error: " ++ message ++ "\n\nCaused by:")
    for cause in causes do IO.eprintln ("    " ++ cause)

def run (args : List String) : IO UInt32 := do
  let working := FileTree.placeOf ⟨toString (← IO.FS.realPath ".")⟩
  let bare ← fetch ((FileTree.mk working []).makeRoom working) ⟨".env"⟩
  let mentioned := ((bare.read ⟨".env"⟩).toOption.map Variables.mentioned).getD []
  let set ← environment (Config.settings.map (·.1) ++ mentioned)
  let tree ← load args set [] bare
  let outcome := Outcome.ofArguments args set tree
  IO.print outcome.printed
  for (place, node) in tree.changes outcome.tree do store place node
  complain outcome.trouble
  return outcome.exit.toUInt32

end Stencil.Program

def main (args : List String) : IO UInt32 := Stencil.Program.run args
