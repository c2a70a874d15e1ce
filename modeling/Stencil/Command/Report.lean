import Stencil.Generation
import Stencil.Json.Writer

/-!
# Rendering many documents

Each document is generated against a copy of the same spec, by workers that finish in any order.
The reports stand in the order of the documents all the same.
-/

namespace Stencil.Command

structure Report where
  document : Path
  output : Option Path
  missing : List String
  attempts : Nat
  error : Option String
  deriving DecidableEq, Repr

namespace Report

def toJson (r : Report) : Json :=
  let optional : Option String → Json
    | some s => .string s
    | none => .null
  .object [
    ("document", .string r.document.text),
    ("output", optional (r.output.map Path.text)),
    ("missing_variables", .array (r.missing.map .string)),
    ("attempts", .integer r.attempts),
    ("error", optional r.error)]

def write (reports : List Report) : String := (Json.array (reports.map toJson)).pretty 0

end Report

structure Work where
  tree : FileTree
  report : Report
  printed : String

namespace Work

def target (directory template : Path) : Path :=
  directory.join (template.fileName?.getD "output")

def deliver (directory : Option Path) (template : Path) (tree : FileTree) (e : Emission) : Work :=
  match directory with
  | none => ⟨tree, ⟨template, none, e.missing, e.attempts, none⟩, e.output⟩
  | some directory =>
    let path := target directory template
    match tree.write path e.output with
    | .ok tree => ⟨tree, ⟨template, some path, e.missing, e.attempts, none⟩, ""⟩
    | .error cause =>
      ⟨tree, ⟨template, none, e.missing, e.attempts, some cause.message⟩, ""⟩

def ofTemplate (config : Config) (spec : Spec) (directory : Option Path) (tree : FileTree)
    (template : Path) : Work :=
  let g := Generation.ofFile config tree spec template
  match g.result with
  | .ok e => deliver directory template g.tree e
  | .error fault => ⟨g.tree, ⟨template, none, [], 0, some fault.message⟩, ""⟩

end Work

/-- What all workers leave behind, with the reports by the numbers of their documents. -/
structure Workshop where
  tree : FileTree
  reports : List (Nat × Report)
  printed : String

namespace Workshop

def finish (config : Config) (spec : Spec) (directory : Option Path) (templates : List Path)
    (w : Workshop) (number : Nat) : Workshop :=
  match templates[number]? with
  | none => w
  | some template =>
    let work := Work.ofTemplate config spec directory w.tree template
    ⟨work.tree, w.reports ++ [(number, work.report)], w.printed ++ work.printed⟩

def inOrder (config : Config) (spec : Spec) (directory : Option Path) (templates : List Path)
    (tree : FileTree) (order : List Nat) : Workshop :=
  order.foldl (finish config spec directory templates) ⟨tree, [], ""⟩

def sorted (w : Workshop) (count : Nat) : List Report :=
  (List.range count).filterMap (w.reports.lookup ·)

end Workshop

end Stencil.Command
