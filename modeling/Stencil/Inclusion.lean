import Stencil.Line
import Stencil.Spec
import Stencil.Document
import Stencil.Script.Evaluator

/-!
# Includes

An include directive names a document by an expression over the fields of the spec.  The lines of
the named document take the place of the directive.  No file is included twice, and a document does
not include itself, so that the expansion of all includes ends.
-/

namespace Stencil

inductive Inclusion where
  | spliced (file : Path) (lines : List SourceLine)
  /-- The file with this real path has been included before. -/
  | refused (file : Path)
  deriving DecidableEq, Repr

namespace Inclusion

def scope (spec : Spec) : List Script.Binding :=
  spec.fields.map fun (name, v) => ⟨name, Script.Value.ofJson v, true⟩

/-- An expression alone knows no fields but those in sight. -/
def alone : Script.Inquiry.Answerer Unit := ⟨fun _ s => (none, s), fun _ => ""⟩

def target (spec : Spec) (expr : String) : Except String String :=
  match Script.parseExpression expr with
  | .error f => .error (Script.Trouble.unreadable f.reason).message
  | .ok (e, functions) =>
    let engine : Script.Engine := ⟨functions, 0, false⟩
    let body : List Script.Stmt := [.expr (Script.Simplify.expr e)]
    match ((Script.evaluate engine body (scope spec)).run alone ()).1 with
    | .value (.string path) => .ok path
    | .value v => .error (Script.Trouble.outputMismatch v.kind "string").message
    | .failed failure => .error failure.message
    | .unfinished => .error Script.Trouble.tooManyOperations.message

def reason (expr : String) (line : SourceLine) (why : String) : String :=
  "line " ++ toString line.number ++ ": `" ++ Text.trim expr ++ "`: " ++ why

/-- Resolves the directive `line` after the files with the real paths `included`. -/
def resolve (tree : FileTree) (spec : Spec) (included : List Path) (expr : String)
    (line : SourceLine) : Except Fault Inclusion :=
  match target spec expr with
  | .error why => .error (.invalidInclude line.origin (reason expr line why))
  | .ok relative =>
    let path := line.origin.directory.join relative
    if tree.isFile path then
      let file := tree.canonical path
      if included.contains file then .ok (.refused file)
      else
        match Document.read tree path with
        | .error fault => .error fault
        | .ok document => .ok (.spliced file (document.splice line.terminated))
    else .error (.missingDocument path)

/-! ## Termination -/

def remaining (tree : FileTree) (included : List Path) : List Path :=
  (tree.entries.map fun e => tree.pathOf e.1).filter fun p => !included.contains p

theorem mem_of_lookup_eq_some {place : Place} {node : Node} {entries : List (Place × Node)}
    (h : entries.lookup place = some node) : (place, node) ∈ entries := by
  induction entries with
  | nil => simp at h
  | cons e rest ih =>
    obtain ⟨p, n⟩ := e
    by_cases hp : place = p
    · subst hp
      simp only [List.lookup_cons_self, Option.some.injEq] at h
      simp [h]
    · have : (place == p) = false := by simp [hp]
      simp only [List.lookup_cons, this] at h
      exact List.mem_cons_of_mem _ (ih h)

theorem canonical_mem {tree : FileTree} {path : Path} (h : tree.isFile path = true) :
    tree.canonical path ∈ tree.entries.map fun e => tree.pathOf e.1 := by
  unfold FileTree.isFile FileTree.at? at h
  unfold FileTree.canonical
  cases hp : tree.realPlace path with
  | error e => simp [hp] at h
  | ok place =>
    simp only [hp] at h ⊢
    have found : ∃ node, tree.entries.lookup place = some node := by
      unfold FileTree.node? at h
      by_cases hr : place = []
      · simp [hr] at h
      · simp only [hr, if_false] at h
        cases hl : tree.entries.lookup place with
        | none => simp [hl] at h
        | some node => exact ⟨node, rfl⟩
    obtain ⟨node, hn⟩ := found
    exact List.mem_map.2 ⟨(place, node), mem_of_lookup_eq_some hn, rfl⟩

/-- What is spliced in was not included before, and is a file of the tree. -/
theorem resolve_spliced {tree : FileTree} {spec : Spec} {included : List Path} {expr : String}
    {line : SourceLine} {file : Path} {lines : List SourceLine}
    (h : resolve tree spec included expr line = .ok (.spliced file lines)) :
    file ∉ included ∧ file ∈ tree.entries.map fun e => tree.pathOf e.1 := by
  unfold resolve at h
  split at h
  · simp at h
  · dsimp only at h
    split at h
    · rename_i hf
      split at h
      · simp at h
      · rename_i hc
        split at h
        · simp at h
        · simp only [Except.ok.injEq, Inclusion.spliced.injEq] at h
          obtain ⟨rfl, -⟩ := h
          exact ⟨by simpa using hc, canonical_mem hf⟩
    · simp at h

/-- With every file that is included, fewer remain. -/
theorem length_remaining_lt {tree : FileTree} {included : List Path} {file : Path}
    (new : file ∉ included) (known : file ∈ tree.entries.map fun e => tree.pathOf e.1) :
    (remaining tree (included ++ [file])).length < (remaining tree included).length := by
  have sub : remaining tree (included ++ [file]) =
      (remaining tree included).filter (· ≠ file) := by
    simp only [remaining, List.filter_filter]
    congr 1
    funext p
    by_cases hp : p = file <;> simp [hp]
  rw [sub]
  refine List.length_filter_lt_length_iff_exists.2 ⟨file, ?_, by simp⟩
  simpa [remaining, new] using known

end Inclusion

/-! ## Expansion -/

structure Expansion where
  lines : List (SourceLine × Line)
  included : List Path
  refused : List Path
  deriving DecidableEq, Repr

namespace Expansion

/-- The expansion of a row of lines after the files with the real paths `included`. -/
def ofLines (tree : FileTree) (spec : Spec) (included : List Path) :
    List SourceLine → Except Fault Expansion
  | [] => .ok ⟨[], [], []⟩
  | line :: rest =>
    match Line.classify line.text with
    | .include expr =>
      match _h : Inclusion.resolve tree spec included expr line with
      | .error fault => .error fault
      | .ok (.refused file) =>
        (ofLines tree spec included rest).map fun e => { e with refused := file :: e.refused }
      | .ok (.spliced file lines) =>
        (ofLines tree spec (included ++ [file]) (lines ++ rest)).map fun e =>
          { e with included := file :: e.included }
    | kind =>
      (ofLines tree spec included rest).map fun e => { e with lines := (line, kind) :: e.lines }
  termination_by lines => ((Inclusion.remaining tree included).length, lines.length)
  decreasing_by
    all_goals first
      | exact Prod.Lex.left _ _ (Inclusion.length_remaining_lt
          (Inclusion.resolve_spliced _h).1 (Inclusion.resolve_spliced _h).2)
      | exact Prod.Lex.right _ (Nat.lt_succ_self _)

end Expansion

end Stencil
