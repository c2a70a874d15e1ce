import Stencil.Command.Help
import Stencil.Command.Report
import Stencil.Command.Variables
import Stencil.Spec.File

/-!
# Running a command

What a command line does to a tree of files, what it prints and how it ends.
-/

namespace Stencil.Command

structure Outcome where
  exit : Nat
  printed : String
  trouble : List String
  tree : FileTree

namespace Outcome

def quoted (path : Path) : String := Text.displayQuoted path.text

def failure (tree : FileTree) (printed message cause : String) : Outcome :=
  ⟨1, printed, [message, cause], tree⟩

def configFor (r : Rendering) (config : Config) : Config :=
  { config with
    deferred := r.deferred
    embedSpec := r.embedSpec
    maxAttempts := r.maxAttempts.getD config.maxAttempts
    dumpDir := r.dumpDir.or config.dumpDir }

def conclude (r : Rendering) (w : Workshop) : Outcome :=
  let reports := w.sorted r.templates.length
  let failed := (reports.filter (·.error.isSome)).length
  let written : Except FileFault FileTree := match r.report with
    | none => .ok w.tree
    | some path => w.tree.write path (Report.write reports)
  match r.report, written with
  | some path, .error cause =>
    failure w.tree w.printed ("Failed to write report " ++ quoted path) cause.message
  | _, written =>
    let tree := written.toOption.getD w.tree
    if failed = 0 then ⟨0, w.printed, [], tree⟩
    else
      let count := toString failed ++ " of " ++ toString reports.length
      ⟨1, w.printed, [count ++ " document(s) failed"], tree⟩

def render (config : Config) (tree : FileTree) (r : Rendering) : Outcome :=
  match Spec.ofFile tree r.spec with
  | .error fault => failure tree "" ("Failed to load spec " ++ quoted r.spec) fault.message
  | .ok spec =>
    let prepared : Except FileFault FileTree := match r.output with
      | none => .ok tree
      | some directory => tree.createAll directory
    match r.output, prepared with
    | some directory, .error cause =>
      failure tree "" ("Failed to create output directory " ++ quoted directory) cause.message
    | _, prepared =>
      conclude r (Workshop.inOrder (configFor r config) spec r.output r.templates
        (prepared.toOption.getD tree) (List.range r.templates.length))

def emitter (config : Config) (tree : FileTree) (template spec : Path) : Outcome :=
  match Spec.ofFile tree spec with
  | .error fault => failure tree "" ("Failed to load spec " ++ quoted spec) fault.message
  | .ok s =>
    match Generation.compileFile config tree s template with
    | .error fault => failure tree "" ("Failed to compile " ++ quoted template) fault.message
    | .ok e => ⟨0, e.source ++ "\n", [], tree⟩

/-- The variables that are set, or supplied by a file in the working directory. -/
def withVariableFile (tree : FileTree) (set : Variables) : Variables :=
  match tree.read ⟨".env"⟩ with
  | .ok text => set.withFile text
  | .error _ => set

def ofArguments (args : List String) (set : Variables) (tree : FileTree) : Outcome :=
  let config := Config.ofEnvironment (withVariableFile tree set)
  match Arguments.request? args with
  | none => ⟨2, "", ["the arguments are wrong"], tree⟩
  | some (.help topic) => ⟨0, Help.text topic, [], tree⟩
  | some .version => ⟨0, Help.version, [], tree⟩
  | some (.render r) => render config tree r
  | some (.emitter template spec) => emitter config tree template spec

end Outcome

end Stencil.Command
