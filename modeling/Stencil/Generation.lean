import Stencil.Emission
import Stencil.Config

/-!
# Generation

From a path to generated text: read the document, find its prelude, compile it and run the emitter.
What happens on the way is told as a row of events.
-/

namespace Stencil

/-- What an observer of a generation is told. -/
inductive Event where
  | start (document : Path)
  | include (document file : Path) (accepted : Bool)
  | missing (document : Path) (names : List String)
  | success (document : Path) (generated : Emission)
  | failure (document : Path) (fault : Fault)
  deriving DecidableEq, Repr

structure Generation where
  result : Except Fault Emission
  spec : Spec
  tree : FileTree
  events : List Event

namespace Generation

def options (config : Config) : Emission.Options :=
  ⟨config.maxAttempts, config.deferred, config.maxOperations⟩

def compile (config : Config) (tree : FileTree) (spec : Spec) (document : Document) :
    Except Fault Emitter := do
  let prelude ← Prelude.locate tree document config.preludeName
  let embed := config.isScript document.path && (config.embedSpec || spec.requestsEmbedding)
  Emitter.compile tree spec prelude embed document

def compileFile (config : Config) (tree : FileTree) (spec : Spec) (path : Path) :
    Except Fault Emitter := do
  compile config tree spec (← Document.read tree path)

def includeEvents (emitter : Emitter) : List Event :=
  emitter.includes.map (.include emitter.document · true) ++
    emitter.refused.map (.include emitter.document · false)

def dumpPath (directory : Path) (emitter : Emitter) : Path :=
  directory.join ((emitter.document.fileName?.getD "document") ++ ".rhai")

def dump (config : Config) (tree : FileTree) (emitter : Emitter) : FileTree × Option Fault :=
  match config.dumpDir with
  | none => (tree, none)
  | some directory =>
    match tree.makeAll directory with
    | (tree, some cause) => (tree, some (.file cause))
    | (tree, none) =>
      match tree.write (dumpPath directory emitter) emitter.source with
      | .error cause => (tree, some (.file cause))
      | .ok tree => (tree, none)

def conclusion (path : Path) : Except Fault Emission → List Event
  | .ok generated =>
    (if generated.missing.isEmpty then [] else [.missing path generated.missing]) ++
      [.success path generated]
  | .error fault => [.failure path fault]

def ofFile (config : Config) (tree : FileTree) (spec : Spec) (path : Path) : Generation :=
  match compileFile config tree spec path with
  | .error fault => ⟨.error fault, spec, tree, .start path :: conclusion path (.error fault)⟩
  | .ok emitter =>
    let (tree, trouble) := dump config tree emitter
    let (result, spec) : Except Fault Emission × Spec :=
      match trouble with
      | some fault => (.error fault, spec)
      | none => emitter.run (options config) spec
    ⟨result, spec, tree, .start path :: includeEvents emitter ++ conclusion path result⟩

end Generation

end Stencil
