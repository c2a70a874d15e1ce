import Mathlib
import Stencil.Proofs.Structure

/-!
# The expansion of includes

An expansion reads one line a round.  A directive is resolved after the root and the files that were
accepted before it, and a file that is accepted is one of these from then on.  No file is therefore
accepted twice, and as each round reads a line of the root or of an accepted file, the lines of the
root and of the files in the tree bound the count of rounds.
-/

namespace Stencil

/-! ## Counts of lines -/

namespace Document

theorem length_number (path : Path) (n : Nat) (ps : List (List Char)) :
    (number path n ps).length = ps.length := by
  induction n, ps using number.induct with
  | case1 n => rfl
  | case2 n piece => rfl
  | case3 n piece rest more ih =>
    rw [number, List.length_cons, List.length_cons, ih]
    exact more

theorem length_lines (document : Document) :
    document.lines.length = (pieces document.text.toList).length := length_number _ _ _

theorem length_closeLast_le (terminated : Bool) (lines : List SourceLine) :
    (closeLast terminated lines).length ≤ lines.length := by
  induction lines using closeLast.induct with
  | case1 => exact Nat.le_refl _
  | case2 line empty => simp [closeLast, empty]
  | case3 line filled => simp [closeLast, filled]
  | case4 line rest more ih =>
    rw [closeLast, List.length_cons, List.length_cons]
    · exact Nat.succ_le_succ ih
    · exact more

end Document

def Node.lineCount : Node → Nat
  | .file text => (Document.pieces text.toList).length
  | _ => 0

namespace FileTree

def lineCount (tree : FileTree) : Nat := (tree.entries.map (·.2.lineCount)).sum

/-- The count of the lines of an entry, unless it is one of the files with real paths `included`. -/
def newLines (tree : FileTree) (included : List Path) (e : Place × Node) : Nat :=
  if tree.pathOf e.1 ∈ included then 0 else e.2.lineCount

def linesBeside (tree : FileTree) (included : List Path) : Nat :=
  (tree.entries.map (tree.newLines included)).sum

theorem linesBeside_le (tree : FileTree) (included : List Path) :
    tree.linesBeside included ≤ tree.lineCount := by
  refine List.sum_le_sum fun e _ => ?_
  unfold newLines
  split
  · exact Nat.zero_le _
  · exact Nat.le_refl _

theorem newLines_append_le (tree : FileTree) (included : List Path) (file : Path)
    (e : Place × Node) : tree.newLines (included ++ [file]) e ≤ tree.newLines included e := by
  by_cases seen : tree.pathOf e.1 ∈ included <;> simp only [newLines, List.mem_append, seen]
  · simp
  · split <;> simp

/-- With a file that is included, its lines are no longer counted. -/
theorem lineCount_add_linesBeside_le {tree : FileTree} {included : List Path} {place : Place}
    {node : Node} (new : tree.pathOf place ∉ included) (known : (place, node) ∈ tree.entries) :
    node.lineCount + tree.linesBeside (included ++ [tree.pathOf place]) ≤
      tree.linesBeside included := by
  have fewer (entries : List (Place × Node)) :
      (entries.map (tree.newLines (included ++ [tree.pathOf place]))).sum ≤
        (entries.map (tree.newLines included)).sum :=
    List.sum_le_sum fun e _ => tree.newLines_append_le included (tree.pathOf place) e
  have at_place : tree.newLines included (place, node) = node.lineCount ∧
      tree.newLines (included ++ [tree.pathOf place]) (place, node) = 0 := by
    simp [newLines, new]
  obtain ⟨front, back, split⟩ := List.append_of_mem known
  have in_front := fewer front
  have in_back := fewer back
  simp only [linesBeside, split, List.map_append, List.map_cons, List.sum_append, List.sum_cons,
    at_place]
  omega

end FileTree

theorem Document.exists_entry_of_read {tree : FileTree} {path : Path} {document : Document}
    (h : read tree path = .ok document) :
    ∃ place node, (place, node) ∈ tree.entries ∧ tree.canonical path = tree.pathOf place ∧
      document.lines.length = node.lineCount := by
  unfold read at h
  split at h
  · split at h
    · rename_i text found
      obtain rfl := Except.ok.inj h
      unfold FileTree.read at found
      cases real : tree.realPlace path with
      | error cause => simp [real, bind, Except.bind] at found
      | ok place =>
        simp only [real, bind, Except.bind] at found
        split at found
        · rename_i node
          obtain rfl := Except.ok.inj found
          unfold FileTree.node? at node
          split at node
          · simp at node
          · refine ⟨place, _, Inclusion.mem_of_lookup_eq_some node, ?_, length_lines _⟩
            rw [FileTree.canonical, real]
        all_goals simp at found
    · simp at h
  · simp at h

theorem FileTree.canonical_of_realPlace {tree : FileTree} {path : Path} {place : Place}
    (real : tree.realPlace path = .ok place) : tree.canonical path = tree.pathOf place := by
  rw [canonical, real]

theorem Document.read_of_realPlace {tree : FileTree} {path : Path} {place : Place} {text : String}
    (real : tree.realPlace path = .ok place) (node : tree.node? place = some (.file text)) :
    read tree path = .ok ⟨path, text⟩ := by
  simp [read, FileTree.isFile, FileTree.at?, FileTree.read, real, node, bind, Except.bind]

/-! ## Resolving a directive -/

namespace Inclusion

variable {tree : FileTree} {spec : Spec} {included : List Path} {expr : String} {line : SourceLine}

/-- The real path of the file that a directive leads to. -/
def file : Inclusion → Path
  | .spliced file _ => file
  | .refused file => file

def accepted? : Inclusion → Option Path
  | .spliced file _ => some file
  | .refused _ => none

def refused? : Inclusion → Option Path
  | .spliced _ _ => none
  | .refused file => some file

/-- Resolves a directive and counts a file that it splices in among the included ones. -/
def resolveNext (tree : FileTree) (spec : Spec) (included : List Path) (expr : String)
    (line : SourceLine) : Except Fault Inclusion × List Path :=
  let outcome := resolve tree spec included expr line
  (outcome, included ++ (outcome.toOption.bind accepted?).toList)

/-- Only a file that is spliced in is counted. -/
theorem resolveNext_eq_iff {outcome : Except Fault Inclusion} {after : List Path} :
    resolveNext tree spec included expr line = (outcome, after) ↔
      resolve tree spec included expr line = outcome ∧
        after = match outcome with
          | .ok (.spliced file _) => included ++ [file]
          | _ => included := by
  rw [resolveNext, Prod.mk.injEq]
  refine and_congr_right fun resolved => ?_
  rw [resolved, eq_comm]
  rcases outcome with fault | ⟨file, lines⟩ | file <;> simp [accepted?, Except.toOption]

/-- A directive that fails or is refused leaves the included files as they are. -/
theorem resolveNext_snd (included : List Path) (expr : String) (line : SourceLine)
    (h : ∀ file lines, (resolveNext tree spec included expr line).1 ≠ .ok (.spliced file lines)) :
    (resolveNext tree spec included expr line).2 = included := by
  obtain ⟨-, after⟩ :=
    resolveNext_eq_iff.1 (Prod.eta (resolveNext tree spec included expr line)).symm
  rw [after]
  split
  · rename_i file lines resolved
    exact absurd resolved (h file lines)
  · rfl

/-- A directive that leads to an included file is refused, and otherwise the file is spliced in. -/
theorem resolve_of_read {relative : String} {document : Document}
    (named : target spec expr = .ok relative)
    (read : Document.read tree (line.origin.directory.join relative) = .ok document) :
    resolve tree spec included expr line =
      .ok (if tree.canonical (line.origin.directory.join relative) ∈ included then
        .refused (tree.canonical (line.origin.directory.join relative))
      else .spliced (tree.canonical (line.origin.directory.join relative))
        (document.splice line.terminated)) := by
  have is_file : tree.isFile (line.origin.directory.join relative) = true := by
    cases h : tree.isFile (line.origin.directory.join relative) with
    | true => rfl
    | false => simp [Document.read, h] at read
  by_cases seen : tree.canonical (line.origin.directory.join relative) ∈ included <;>
    simp [resolve, named, is_file, read, seen]

theorem mem_of_resolve_refused {file : Path}
    (h : resolve tree spec included expr line = .ok (.refused file)) : file ∈ included := by
  unfold resolve at h
  split at h
  · simp at h
  · dsimp only at h
    split at h
    · split at h
      · rename_i seen
        simp only [Except.ok.injEq, Inclusion.refused.injEq] at h
        subst h
        simpa using seen
      · split at h <;> simp at h
    · simp at h

end Inclusion

theorem Inclusion.lines_add_linesBeside_le {tree : FileTree} {spec : Spec} {included : List Path}
    {expr : String} {line : SourceLine} {file : Path} {lines : List SourceLine}
    (h : resolve tree spec included expr line = .ok (.spliced file lines)) :
    lines.length + tree.linesBeside (included ++ [file]) ≤ tree.linesBeside included := by
  obtain ⟨path, document, rfl, read, rfl⟩ := read_of_resolve_spliced h
  obtain ⟨place, node, known, real, count⟩ := Document.exists_entry_of_read read
  have new := (resolve_spliced h).1
  rw [real] at new ⊢
  have all := FileTree.lineCount_add_linesBeside_le new known
  have few := Document.length_closeLast_le line.terminated document.lines
  unfold Document.splice
  omega

/-! ## Rounds -/

/-- A directive that was met, and what it led to. -/
structure Met where
  line : SourceLine
  expr : String
  outcome : Except Fault Inclusion

namespace Met

def file? (m : Met) : Option Path := m.outcome.toOption.map Inclusion.file

def accepted? (m : Met) : Option Path := m.outcome.toOption.bind Inclusion.accepted?

def refused? (m : Met) : Option Path := m.outcome.toOption.bind Inclusion.refused?

/-- The files that are accepted, in the order in which their directives are met. -/
def accepted (met : List Met) : List Path := met.filterMap accepted?

def refused (met : List Met) : List Path := met.filterMap refused?

theorem outcome_of_refused? {m : Met} {file : Path} (h : m.refused? = some file) :
    m.outcome = .ok (.refused file) := by
  obtain ⟨line, expr, outcome⟩ := m
  rcases outcome with fault | ⟨other, lines⟩ | other <;>
    simp_all [refused?, Except.toOption, Inclusion.refused?]

section

variable (line : SourceLine) (expr : String) (met : List Met)

@[simp]
theorem accepted_nil : accepted [] = [] := rfl

@[simp]
theorem accepted_failed (fault : Fault) :
    accepted (⟨line, expr, .error fault⟩ :: met) = accepted met := rfl

@[simp]
theorem accepted_refused (file : Path) :
    accepted (⟨line, expr, .ok (.refused file)⟩ :: met) = accepted met := rfl

@[simp]
theorem accepted_spliced (file : Path) (lines : List SourceLine) :
    accepted (⟨line, expr, .ok (.spliced file lines)⟩ :: met) = file :: accepted met := rfl

end

end Met

namespace Expansion

variable {tree : FileTree} {spec : Spec}

/--
An expansion in rounds, counted: after the files `included`, so many rounds over a row of lines meet
the directives `met` and lead to an outcome.
-/
inductive Expands (tree : FileTree) (spec : Spec) :
    Nat → List Path → List SourceLine → List Met → Except Fault Expansion → Prop
  | done {included} : Expands tree spec 0 included [] [] (.ok ⟨[], [], []⟩)
  | kept {rounds included line rest met outcome}
      (kind : (Line.classify line.text).isInclude = false)
      (later : Expands tree spec rounds included rest met outcome) :
      Expands tree spec (rounds + 1) included (line :: rest) met
        (outcome.map fun e => { e with lines := (line, Line.classify line.text) :: e.lines })
  | failed {included line rest expr fault after}
      (kind : Line.classify line.text = .include expr)
      (resolved : Inclusion.resolveNext tree spec included expr line = (.error fault, after)) :
      Expands tree spec 1 included (line :: rest) [⟨line, expr, .error fault⟩] (.error fault)
  | refused {rounds included line rest expr file after met outcome}
      (kind : Line.classify line.text = .include expr)
      (resolved : Inclusion.resolveNext tree spec included expr line =
        (.ok (.refused file), after))
      (later : Expands tree spec rounds after rest met outcome) :
      Expands tree spec (rounds + 1) included (line :: rest)
        (⟨line, expr, .ok (.refused file)⟩ :: met)
        (outcome.map fun e => { e with refused := file :: e.refused })
  | spliced {rounds included line rest expr file lines after met outcome}
      (kind : Line.classify line.text = .include expr)
      (resolved : Inclusion.resolveNext tree spec included expr line =
        (.ok (.spliced file lines), after))
      (later : Expands tree spec rounds after (lines ++ rest) met outcome) :
      Expands tree spec (rounds + 1) included (line :: rest)
        (⟨line, expr, .ok (.spliced file lines)⟩ :: met)
        (outcome.map fun e => { e with included := file :: e.included })

theorem expands_ofLines (included : List Path) (lines : List SourceLine) :
    ∃ rounds met, rounds ≤ lines.length + tree.linesBeside included ∧
      Expands tree spec rounds included lines met (ofLines tree spec included lines) := by
  induction included, lines using ofLines.induct tree spec with
  | case1 included =>
    rw [ofLines]
    exact ⟨0, [], Nat.zero_le _, .done⟩
  | case2 included line rest expr kind fault failed =>
    rw [ofLines_failed kind failed]
    refine ⟨1, _, ?_, .failed kind (Inclusion.resolveNext_eq_iff.2 ⟨failed, rfl⟩)⟩
    rw [List.length_cons]
    omega
  | case3 included line rest expr kind file refused ih =>
    obtain ⟨rounds, met, bound, later⟩ := ih
    rw [ofLines_refused kind refused]
    refine ⟨rounds + 1, _, ?_, .refused kind (Inclusion.resolveNext_eq_iff.2 ⟨refused, rfl⟩) later⟩
    rw [List.length_cons]
    omega
  | case4 included line rest expr kind file lines spliced ih =>
    obtain ⟨rounds, met, bound, later⟩ := ih
    have fewer := Inclusion.lines_add_linesBeside_le spliced
    rw [ofLines_spliced kind spliced]
    refine ⟨rounds + 1, _, ?_, .spliced kind (Inclusion.resolveNext_eq_iff.2 ⟨spliced, rfl⟩) later⟩
    rw [List.length_append] at bound
    rw [List.length_cons]
    omega
  | case5 included line rest kind ih =>
    obtain ⟨rounds, met, bound, later⟩ := ih
    have kept : (Line.classify line.text).isInclude = false := by
      cases hk : Line.classify line.text <;> simp_all [Line.isInclude]
    rw [ofLines_kept kept]
    refine ⟨rounds + 1, met, ?_, .kept kept later⟩
    rw [List.length_cons]
    omega

/--
An expansion tells of exactly the directives that were met, in their order; a fault is that of the
last one.
-/
def Tells (met : List Met) : Except Fault Expansion → Prop
  | .error fault => ∃ before m, met = before ++ [m] ∧ m.outcome = .error fault
  | .ok e => e.included = Met.accepted met ∧ e.refused = Met.refused met ∧
      met.length = e.included.length + e.refused.length

namespace Expands

variable {rounds : Nat} {included : List Path} {lines : List SourceLine} {met : List Met}
  {outcome : Except Fault Expansion}

theorem eq_ofLines (h : Expands tree spec rounds included lines met outcome) :
    ofLines tree spec included lines = outcome := by
  induction h with
  | done => rw [ofLines]
  | kept kind later ih => rw [ofLines_kept kind, ih]
  | failed kind resolved => exact ofLines_failed kind (Inclusion.resolveNext_eq_iff.1 resolved).1
  | refused kind resolved later ih =>
    obtain ⟨refused, rfl⟩ := Inclusion.resolveNext_eq_iff.1 resolved
    rw [ofLines_refused kind refused, ih]
  | spliced kind resolved later ih =>
    obtain ⟨spliced, rfl⟩ := Inclusion.resolveNext_eq_iff.1 resolved
    rw [ofLines_spliced kind spliced, ih]

/-- Every directive is resolved after the files that were accepted before it. -/
theorem resolved (h : Expands tree spec rounds included lines met outcome) {before : List Met}
    {m : Met} (at_m : before ++ [m] <+: met) :
    Line.classify m.line.text = .include m.expr ∧
      Inclusion.resolveNext tree spec (included ++ Met.accepted before) m.expr m.line =
        (m.outcome, included ++ Met.accepted (before ++ [m])) := by
  induction h generalizing before with
  | done => simp at at_m
  | kept kind later ih => exact ih at_m
  | failed kind resolved =>
    obtain rfl : before = [] := by
      cases before with
      | nil => rfl
      | cons first before => simp at at_m
    obtain rfl : m = _ := by simpa using at_m
    obtain ⟨-, rfl⟩ := Inclusion.resolveNext_eq_iff.1 resolved
    exact ⟨kind, by simpa using resolved⟩
  | refused kind resolved later ih =>
    obtain ⟨-, rfl⟩ := Inclusion.resolveNext_eq_iff.1 resolved
    cases before with
    | nil =>
      obtain rfl : m = _ := by simpa using at_m
      exact ⟨kind, by simpa using resolved⟩
    | cons first before =>
      obtain ⟨rfl, behind⟩ := List.cons_prefix_cons.1 at_m
      have further := ih behind
      exact further
  | spliced kind resolved later ih =>
    obtain ⟨-, rfl⟩ := Inclusion.resolveNext_eq_iff.1 resolved
    cases before with
    | nil =>
      obtain rfl : m = _ := by simpa using at_m
      exact ⟨kind, by simpa using resolved⟩
    | cons first before =>
      obtain ⟨rfl, behind⟩ := List.cons_prefix_cons.1 at_m
      simpa using ih behind

theorem nodup_accepted (h : Expands tree spec rounds included lines met outcome)
    (distinct : included.Nodup) : (included ++ Met.accepted met).Nodup := by
  induction h with
  | done => simpa using distinct
  | kept kind later ih => exact ih distinct
  | failed kind resolved => simpa using distinct
  | refused kind resolved later ih =>
    obtain ⟨refused, rfl⟩ := Inclusion.resolveNext_eq_iff.1 resolved
    exact ih distinct
  | @spliced _ included _ _ _ file _ _ _ _ kind resolved later ih =>
    obtain ⟨spliced, rfl⟩ := Inclusion.resolveNext_eq_iff.1 resolved
    have new := (Inclusion.resolve_spliced spliced).1
    have distinct' : (included ++ [file]).Nodup := by
      rw [← List.perm_append_comm.nodup_iff]
      exact List.nodup_cons.2 ⟨new, distinct⟩
    simpa using ih distinct'

theorem tells (h : Expands tree spec rounds included lines met outcome) : Tells met outcome := by
  induction h with
  | done => exact ⟨rfl, rfl, rfl⟩
  | @kept _ _ _ _ _ outcome kind later ih => cases outcome <;> exact ih
  | failed kind resolved => exact ⟨[], _, rfl, rfl⟩
  | @refused _ _ line _ expr file _ _ outcome kind resolved later ih =>
    cases outcome with
    | error fault =>
      obtain ⟨before, m, rfl, failed⟩ := ih
      exact ⟨_ :: before, m, rfl, failed⟩
    | ok e =>
      obtain ⟨included, refused, count⟩ := ih
      refine ⟨included, congrArg (file :: ·) refused, ?_⟩
      simp only [List.length_cons, count]
      omega
  | @spliced _ _ _ _ _ file _ _ _ outcome kind resolved later ih =>
    cases outcome with
    | error fault =>
      obtain ⟨before, m, rfl, failed⟩ := ih
      exact ⟨_ :: before, m, rfl, failed⟩
    | ok e =>
      obtain ⟨included, refused, count⟩ := ih
      refine ⟨congrArg (file :: ·) included, refused, ?_⟩
      simp only [List.length_cons, count]
      omega

end Expands

end Expansion

namespace Emitter

end Emitter

end Stencil
