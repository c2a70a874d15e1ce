import Stencil.Command.Outcome

/-!
# The files a command looks at

A command works on a tree of files.  Which files it looks at shows step by step: the spec decides
what an include names, and the file it names may include others.  So the demand of a command is asked
for again whenever files were added to its tree, until nothing new is demanded.
-/

namespace Stencil.Command.Demand

/-- The file that keeps a document from being compiled because the tree lacks it. -/
def obstacle (config : Config) (tree : FileTree) (spec template : Path) : List Path :=
  match Spec.ofFile tree spec with
  | .error _ => []
  | .ok s =>
    match Generation.compileFile config tree s template with
    | .error (.missingDocument path) => [path]
    | _ => []

def ofTemplate (config : Config) (tree : FileTree) (spec template : Path) : List Path :=
  [template, template.directory.join config.preludeName] ++ obstacle config tree spec template

def targets (config : Config) (directory : Option Path) (template : Path) : List Path :=
  (directory.map (Work.target · template)).toList ++
    (config.dumpDir.map (·.join ((template.fileName?.getD "document") ++ ".rhai"))).toList

def ofRequest (config : Config) (tree : FileTree) : Request → List Path
  | .render r =>
    let config := Outcome.configFor r config
    [r.spec] ++ r.output.toList ++ config.dumpDir.toList ++ r.report.toList ++
      r.templates.flatMap fun t => ofTemplate config tree r.spec t ++ targets config r.output t
  | .emitter template spec => spec :: ofTemplate config tree spec template
  | .help _ | .version => []

/-- All files that a command line is known to look at, given those that the tree has. -/
def ofArguments (args : List String) (set : Variables) (tree : FileTree) : List Path :=
  let config := Config.ofEnvironment (Outcome.withVariableFile tree set)
  ⟨".env"⟩ :: ((Arguments.request? args).map (ofRequest config tree)).getD []

end Stencil.Command.Demand
