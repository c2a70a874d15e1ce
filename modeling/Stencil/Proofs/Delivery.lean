import Stencil.Command.Demand
import Stencil.Proofs.FileTree
import Stencil.Proofs.Inlining
import Stencil.Proofs.Reprocessing

/-!
# What workers write

A worker makes the directory for dumps and writes at most two files, the dump and the output of its
document.  Where these files go is settled by the tree with that directory made, whatever other
workers have written, so that an output which no other worker writes to is there in the end.
-/

namespace Stencil

open FileTree (Filled SameWays)

/-! ## Writing at the places of some paths -/

/-- Whether a write to one of some paths goes to a place. -/
def FileTree.LeadsTo (tree : FileTree) (paths : List Path) (place : Place) : Prop :=
  ∃ path ∈ paths, tree.receiver path = .ok place

theorem FileTree.filled_of_write {base tree after : FileTree} {paths : List Path} {path : Path}
    {text : String} (same : SameWays base tree) (known : path ∈ paths)
    (written : tree.write path text = .ok after) : Filled (base.LeadsTo paths) tree after := by
  cases received : tree.receiver path with
  | error fault =>
    rw [write_of_error received] at written
    cases written
  | ok place =>
    rw [write_of_receiver received] at written
    obtain rfl := Except.ok.inj written
    exact Filled.put (receiver_eq_ok.1 received).2 ⟨path, known, same.symm.receiver received⟩ text

/-! ## The directory for dumps -/

namespace Generation

variable {config : Config} {base tree : FileTree}

/-- A tree with the directory for dumps made. -/
def prepared (config : Config) (tree : FileTree) : FileTree :=
  match config.dumpDir with
  | none => tree
  | some directory => (tree.makeAll directory).1

/-- Whether the directory for dumps, if there is one, can be made. -/
def Made (config : Config) (tree : FileTree) : Prop :=
  ∀ directory, config.dumpDir = some directory → (tree.makeAll directory).2 = none

/-- Whether nothing is made of the directory for dumps if it cannot be made. -/
def MadeOrKept (config : Config) (tree : FileTree) : Prop :=
  Made config tree ∨ prepared config tree = tree

/--
The trees between the workers of a run that began with `base`: nothing was changed yet, or the
directory for dumps is made and files were written at some of the places.
-/
inductive Stage (config : Config) (base : FileTree) (places : Place → Prop) : FileTree → Prop
  | fresh : Stage config base places base
  | filled {tree : FileTree} (made : Made config base) (h : Filled places (prepared config base) tree) :
      Stage config base places tree

theorem prepared_of_filled (made : Made config base) (same : SameWays (prepared config base) tree) :
    prepared config tree = tree := by
  unfold prepared at same ⊢
  cases dump : config.dumpDir with
  | none => rfl
  | some directory =>
    simp only [dump] at same ⊢
    have whole : base.makeAll directory = ((base.makeAll directory).1, none) :=
      Prod.ext rfl (made directory dump)
    rw [FileTree.makeAll_again whole same]

namespace Stage

variable {places : Place → Prop}

theorem prepared (stage : Stage config base places tree) :
    Filled places (prepared config base) (prepared config tree) := by
  cases stage with
  | fresh => exact Filled.refl places _
  | filled made h => rwa [prepared_of_filled made h.toSameWays]

/-- The directory for dumps can be made in all trees of a run, or in none. -/
theorem trouble (stage : Stage config base places tree) {directory : Path}
    (dump : config.dumpDir = some directory) :
    (tree.makeAll directory).2 = (base.makeAll directory).2 := by
  cases stage with
  | fresh => rfl
  | filled made h =>
    have whole : base.makeAll directory = ((base.makeAll directory).1, none) :=
      Prod.ext rfl (made directory dump)
    have same : SameWays (base.makeAll directory).1 tree := by
      have := h.toSameWays
      rwa [Generation.prepared, dump] at this
    rw [FileTree.makeAll_again whole same, made directory dump]

end Stage

/-! ## One worker -/

/-- Of a file that is compiled, the document is read, and its lines with the closing one expanded. -/
theorem compileFile_eq_ok {spec : Spec} {path : Path} {emitter : Emitter}
    (compiled : compileFile config tree spec path = .ok emitter) :
    ∃ document e, Document.read tree path = .ok document ∧
      Expansion.ofLines tree spec [tree.canonical path]
        (document.lines ++ [Emitter.closing document]) = .ok e ∧
      emitter.document = path ∧ emitter.includes = e.included ∧ emitter.refused = e.refused := by
  unfold compileFile at compiled
  cases read : Document.read tree path with
  | error fault => simp [read, bind, Except.bind] at compiled
  | ok document =>
    obtain rfl := Document.path_of_read read
    simp only [read, bind, Except.bind, compile] at compiled
    cases located : Prelude.locate tree document config.preludeName with
    | error fault => simp [located] at compiled
    | ok prelude =>
      simp only [located] at compiled
      obtain ⟨e, expanded, rfl⟩ := Emitter.compile_eq_ok compiled
      exact ⟨document, e, rfl, expanded, rfl, rfl, rfl⟩

theorem document_of_compileFile {spec : Spec} {path : Path} {emitter : Emitter}
    (compiled : compileFile config tree spec path = .ok emitter) : emitter.document = path := by
  obtain ⟨document, e, -, -, same, -, -⟩ := compileFile_eq_ok compiled
  exact same

/-- A dump that is not made leaves the tree as it is, or as the directory for dumps was made. -/
theorem dump_filled {places : Place → Prop} (kept : MadeOrKept config base)
    (stage : Stage config base places tree) (emitter : Emitter) {paths : List Path}
    (known : ∀ directory, config.dumpDir = some directory → dumpPath directory emitter ∈ paths) :
    (dump config tree emitter).1 = tree ∧ (dump config tree emitter).2 ≠ none ∨
      Made config base ∧ Filled ((prepared config base).LeadsTo paths) (prepared config tree)
        (dump config tree emitter).1 := by
  have same := stage.prepared.toSameWays
  unfold dump
  cases target : config.dumpDir with
  | none =>
    right
    refine ⟨fun directory h => by simp [target] at h, ?_⟩
    simp only [prepared, target]
    exact Filled.refl _ _
  | some directory =>
    have base_trouble := stage.trouble target
    have made_tree : prepared config tree = (tree.makeAll directory).1 := by
      rw [prepared, target]
    rcases pair : tree.makeAll directory with ⟨made, trouble⟩
    rw [pair] at base_trouble made_tree
    dsimp only at base_trouble made_tree
    cases trouble with
    | some cause =>
      -- Only the first tree of a run can be in trouble, and then it is kept.
      left
      refine ⟨?_, by simp [pair]⟩
      have not_made : ¬Made config base := fun h => by
        simp [h directory target] at base_trouble
      cases stage with
      | fresh => simpa [pair, ← made_tree] using kept.resolve_left not_made
      | filled h => exact absurd h not_made
    | none =>
      right
      have is_made : Made config base := fun other h => by
        rw [target, Option.some.injEq] at h
        rw [← h, ← base_trouble]
      refine ⟨is_made, ?_⟩
      simp only [pair]
      rw [made_tree] at same ⊢
      cases written : made.write (dumpPath directory emitter) emitter.source with
      | error cause => exact Filled.refl _ _
      | ok after => exact FileTree.filled_of_write same (known directory target) written

theorem ofFile_filled {places : Place → Prop} (kept : MadeOrKept config base)
    (stage : Stage config base places tree) (spec : Spec) (path : Path) {paths : List Path}
    (known : ∀ directory, config.dumpDir = some directory →
      directory.join ((path.fileName?.getD "document") ++ ".rhai") ∈ paths) :
    (ofFile config tree spec path).tree = tree ∧
        (∀ e, (ofFile config tree spec path).result ≠ .ok e) ∨
      Made config base ∧ Filled ((prepared config base).LeadsTo paths) (prepared config tree)
        (ofFile config tree spec path).tree := by
  unfold ofFile
  cases compiled : compileFile config tree spec path with
  | error fault => exact .inl ⟨rfl, by simp⟩
  | ok emitter =>
    have dumps : ∀ directory, config.dumpDir = some directory →
        dumpPath directory emitter ∈ paths := by
      intro directory h
      rw [dumpPath, document_of_compileFile compiled]
      exact known directory h
    refine (dump_filled kept stage emitter dumps).imp (fun failed => ⟨failed.1, ?_⟩) id
    obtain ⟨fault, h⟩ := Option.ne_none_iff_exists'.1 failed.2
    simp [h]

end Generation

/-! ## Documents that stand alone -/

/-- The emitter of a document without includes, prelude and embedding. -/
def Emitter.alone (document : Document) : Emitter :=
  ⟨document.path, Emitter.opening document none false ++
    Emitter.body [] ((document.lines ++ [Emitter.closing document]).map
      fun line => (line, Line.classify line.text)) ++ Emitter.ending false, [], []⟩

theorem Generation.compileFile_alone {config : Config} {tree : FileTree} {path : Path}
    {place : Place} {text : String} (real : tree.realPlace path = .ok place)
    (file : tree.node? place = some (.file text))
    (no_prelude : tree.isFile (path.directory.join config.preludeName) = false)
    (no_script : config.isScript path = false)
    (kept : ∀ line ∈ (Document.mk path text).lines, (Line.classify line.text).isInclude = false)
    (spec : Spec) :
    compileFile config tree spec path = .ok (Emitter.alone ⟨path, text⟩) := by
  have located : Prelude.locate tree ⟨path, text⟩ config.preludeName = .ok none := by
    simp [Prelude.locate, no_prelude]
  rw [compileFile_of_read (Document.read_of_realPlace real file), compile, located]
  simp only [bind, Except.bind, no_script, Bool.false_and]
  exact Emitter.compile_of_kept kept

open Generation (Made MadeOrKept Stage prepared)

namespace Command

variable {config : Config} {base tree : FileTree} {places : Place → Prop}

open Demand (targets)

theorem dump_mem_targets (directory : Option Path) {dumps template : Path}
    (h : config.dumpDir = some dumps) :
    dumps.join ((template.fileName?.getD "document") ++ ".rhai") ∈
      targets config directory template := by
  simp [targets, h]

namespace Work

theorem target_mem_targets (config : Config) (directory template : Path) :
    target directory template ∈ targets config (some directory) template := by
  simp [targets]

theorem deliver_filled {directory : Option Path} {template : Path} {paths : List Path}
    (same : SameWays base tree) (known : ∀ d, directory = some d → target d template ∈ paths)
    (e : Emission) :
    Filled (base.LeadsTo paths) tree (deliver directory template tree e).tree := by
  unfold deliver
  cases directory with
  | none => exact Filled.refl _ _
  | some d =>
    dsimp only
    cases written : tree.write (target d template) e.output with
    | error cause => exact Filled.refl _ _
    | ok after => exact FileTree.filled_of_write same (known d rfl) written

variable {spec : Spec} {directory : Option Path} {template : Path}

theorem ofTemplate_of_error {fault : Fault}
    (h : (Generation.ofFile config tree spec template).result = .error fault) :
    ofTemplate config spec directory tree template =
      ⟨(Generation.ofFile config tree spec template).tree,
        ⟨template, none, [], 0, some fault.message⟩, ""⟩ := by
  simp only [ofTemplate, h]

theorem ofTemplate_of_ok {e : Emission}
    (h : (Generation.ofFile config tree spec template).result = .ok e) :
    ofTemplate config spec directory tree template =
      deliver directory template (Generation.ofFile config tree spec template).tree e := by
  simp only [ofTemplate, h]

theorem deliver_of_receiver {d : Path} {place : Place}
    (h : tree.receiver (target d template) = .ok place) (e : Emission) :
    deliver (some d) template tree e =
      ⟨tree.put place (.file e.output),
        ⟨template, some (target d template), e.missing, e.attempts, none⟩, ""⟩ := by
  unfold deliver
  dsimp only
  rw [FileTree.write_of_receiver h]

theorem deliver_of_error {d : Path} {cause : FileFault}
    (h : tree.receiver (target d template) = .error cause) (e : Emission) :
    deliver (some d) template tree e =
      ⟨tree, ⟨template, none, e.missing, e.attempts, some cause.message⟩, ""⟩ := by
  unfold deliver
  dsimp only
  rw [FileTree.write_of_error h]

theorem document_ofTemplate (config : Config) (spec : Spec) (directory : Option Path)
    (tree : FileTree) (template : Path) :
    (ofTemplate config spec directory tree template).report.document = template := by
  cases result : (Generation.ofFile config tree spec template).result with
  | error fault => rw [ofTemplate_of_error result]
  | ok e =>
    rw [ofTemplate_of_ok result]
    cases directory with
    | none => rfl
    | some d =>
      cases received : (Generation.ofFile config tree spec template).tree.receiver
        (target d template) with
      | error cause => rw [deliver_of_error received]
      | ok place => rw [deliver_of_receiver received]

/-- A worker delivers what its emitter gives, where nothing is dumped. -/
theorem ofTemplate_of_run {emitter : Emitter} {e : Emission} (no_dump : config.dumpDir = none)
    (compiled : Generation.compileFile config tree spec template = .ok emitter)
    (done : (emitter.run (Generation.options config) spec).1 = .ok e) :
    (Generation.ofFile config tree spec template).result = .ok e ∧
      ofTemplate config spec directory tree template = deliver directory template tree e := by
  obtain ⟨result, -, same⟩ := Generation.ofFile_of_compileFile no_dump compiled
  have generated := result.trans done
  refine ⟨generated, ?_⟩
  rw [ofTemplate_of_ok generated, same]

/-- A worker writes at the places of its targets only, into the tree with the directory for dumps. -/
theorem ofTemplate_filled (kept : MadeOrKept config base) (stage : Stage config base places tree)
    (spec : Spec) (directory : Option Path) (template : Path) :
    (ofTemplate config spec directory tree template).tree = tree ∨
      Made config base ∧
        Filled ((prepared config base).LeadsTo (targets config directory template))
          (prepared config tree) (ofTemplate config spec directory tree template).tree := by
  have generated := Generation.ofFile_filled kept stage spec template
    fun dumps h => dump_mem_targets directory h
  cases result : (Generation.ofFile config tree spec template).result with
  | error fault =>
    rw [ofTemplate_of_error result]
    exact generated.imp And.left id
  | ok e =>
    right
    obtain ⟨made, filled⟩ := generated.resolve_left fun failed => failed.2 e result
    rw [ofTemplate_of_ok result]
    refine ⟨made, filled.trans (deliver_filled ?_ ?_ e)⟩
    · exact stage.prepared.toSameWays.trans filled.toSameWays
    · rintro d rfl
      exact target_mem_targets config d template

/-- A worker whose report is without an error has written its output, and where its path leads. -/
theorem exists_output (kept : MadeOrKept config base) (stage : Stage config base places tree)
    (spec : Spec) (directory template : Path)
    (fine : (ofTemplate config spec (some directory) tree template).report.error = none) :
    ∃ e place, (Generation.ofFile config tree spec template).result = .ok e ∧
      (ofTemplate config spec (some directory) tree template).report.output =
        some (target directory template) ∧
      (prepared config base).receiver (target directory template) = .ok place ∧
      (ofTemplate config spec (some directory) tree template).tree.node? place =
        some (.file e.output) ∧
      Made config base ∧
      SameWays (prepared config base)
        (ofTemplate config spec (some directory) tree template).tree := by
  have generated := Generation.ofFile_filled kept stage spec template
    fun dumps h => dump_mem_targets (some directory) h
  cases result : (Generation.ofFile config tree spec template).result with
  | error fault =>
    rw [ofTemplate_of_error result] at fine
    cases fine
  | ok e =>
    obtain ⟨made, filled⟩ := generated.resolve_left fun failed => failed.2 e result
    have same := stage.prepared.toSameWays.trans filled.toSameWays
    rw [ofTemplate_of_ok result] at fine ⊢
    cases received : (Generation.ofFile config tree spec template).tree.receiver
      (target directory template) with
    | error cause =>
      rw [deliver_of_error received] at fine
      cases fine
    | ok place =>
      have free := (FileTree.receiver_eq_ok.1 received).2
      rw [deliver_of_receiver received]
      refine ⟨e, place, rfl, rfl, same.symm.receiver received, ?_, made, same.trans ?_⟩
      · exact FileTree.node?_put_self _ (FileTree.ne_nil_of_passage free)
      · exact FileTree.sameWays_put free e.output

end Work

/-! ## A run of workers -/

namespace Workshop

variable {spec : Spec} {directory : Option Path} {templates : List Path}

theorem inOrder_append (order later : List Nat) :
    inOrder config spec directory templates tree (order ++ later) =
      later.foldl (finish config spec directory templates)
        (inOrder config spec directory templates tree order) :=
  List.foldl_append

theorem finish_of_some {w : Workshop} {number : Nat} {template : Path}
    (h : templates[number]? = some template) :
    finish config spec directory templates w number =
      ⟨(Work.ofTemplate config spec directory w.tree template).tree,
        w.reports ++ [(number, (Work.ofTemplate config spec directory w.tree template).report)],
        w.printed ++ (Work.ofTemplate config spec directory w.tree template).printed⟩ := by
  rw [finish, h]

theorem finish_of_none {w : Workshop} {number : Nat} (h : templates[number]? = none) :
    finish config spec directory templates w number = w := by
  rw [finish, h]

/-- Between two workers the tree is one of a run, whoever has finished. -/
theorem stage_inOrder (kept : MadeOrKept config base) (spec : Spec) {directory : Option Path}
    {templates : List Path}
    (known : ∀ template ∈ templates, ∀ place,
      (prepared config base).LeadsTo (targets config directory template) place → places place)
    (order : List Nat) :
    Stage config base places (inOrder config spec directory templates base order).tree := by
  induction order using List.reverseRecOn with
  | nil => exact .fresh
  | append_singleton order number ih =>
    rw [inOrder_append, List.foldl_cons, List.foldl_nil]
    cases h : templates[number]? with
    | none => rwa [finish_of_none h]
    | some template =>
      rw [finish_of_some h]
      obtain same | ⟨made, filled⟩ := Work.ofTemplate_filled kept ih spec directory template
      · rwa [same]
      · exact .filled made (ih.prepared.trans
          (filled.mono (known template (List.mem_of_getElem? h))))

/-- What one worker has written stays while no other writes to the same place. -/
theorem node?_foldl (made : Made config base) (spec : Spec) (directory : Option Path)
    (templates : List Path) (w : Workshop)
    (same : SameWays (prepared config base) w.tree) {later : List Nat} {place : Place}
    (apart : ∀ number ∈ later, ∀ template, templates[number]? = some template →
      ¬(prepared config base).LeadsTo (targets config directory template) place) :
    SameWays (prepared config base)
        (later.foldl (finish config spec directory templates) w).tree ∧
      (later.foldl (finish config spec directory templates) w).tree.node? place =
        w.tree.node? place := by
  induction later generalizing w with
  | nil => exact ⟨same, rfl⟩
  | cons number later ih =>
    have rest_apart : ∀ number ∈ later, ∀ template, templates[number]? = some template →
        ¬(prepared config base).LeadsTo (targets config directory template) place :=
      fun other h => apart other (List.mem_cons_of_mem _ h)
    rw [List.foldl_cons]
    cases h : templates[number]? with
    | none =>
      rw [finish_of_none h]
      exact ih w same rest_apart
    | some template =>
      have stage : Stage config base (fun _ => True) w.tree :=
        .filled made ⟨same, fun place never => absurd trivial never⟩
      have step : Filled ((prepared config base).LeadsTo (targets config directory template))
          w.tree (Work.ofTemplate config spec directory w.tree template).tree := by
        obtain unchanged | ⟨-, filled⟩ :=
          Work.ofTemplate_filled (.inl made) stage spec directory template
        · rw [unchanged]
          exact Filled.refl _ _
        · rwa [Generation.prepared_of_filled made same] at filled
      obtain ⟨ways, node⟩ := ih (finish config spec directory templates w number)
        (by rw [finish_of_some h]; exact same.trans step.toSameWays) rest_apart
      refine ⟨ways, node.trans ?_⟩
      rw [finish_of_some h]
      exact step.kept place (apart number (by simp) template h)

/-! ## The reports of a run -/

theorem exists_reports_foldl (config : Config) (spec : Spec) (directory : Option Path)
    (templates : List Path) (w : Workshop) (later : List Nat) :
    ∃ more, (later.foldl (finish config spec directory templates) w).reports = w.reports ++ more ∧
      ∀ entry ∈ more, entry.1 ∈ later := by
  induction later generalizing w with
  | nil => exact ⟨[], by simp, by simp⟩
  | cons number later ih =>
    obtain ⟨more, reports, numbers⟩ := ih (finish config spec directory templates w number)
    rw [List.foldl_cons, reports]
    have old : ∀ entry ∈ more, entry.1 ∈ number :: later :=
      fun entry h => List.mem_cons_of_mem _ (numbers entry h)
    cases h : templates[number]? with
    | none =>
      rw [finish_of_none h]
      exact ⟨more, rfl, old⟩
    | some template =>
      rw [finish_of_some h, List.append_assoc]
      exact ⟨_, rfl, List.forall_mem_cons.2 ⟨List.mem_cons_self, old⟩⟩

theorem lookup_eq_none {reports : List (Nat × Report)} {number : Nat}
    (h : ∀ entry ∈ reports, entry.1 ≠ number) : reports.lookup number = none := by
  rw [List.lookup_eq_none_iff]
  intro entry known
  simpa using Ne.symm (h entry known)

/-- The report of a document is that of its worker, after those that finished before it. -/
theorem lookup_inOrder {before later : List Nat} {number : Nat} {template : Path}
    (first : number ∉ before) (h : templates[number]? = some template) :
    (inOrder config spec directory templates tree
        (before ++ number :: later)).reports.lookup number =
      some (Work.ofTemplate config spec directory
        (inOrder config spec directory templates tree before).tree template).report := by
  obtain ⟨early, reports, numbers⟩ :=
    exists_reports_foldl config spec directory templates ⟨tree, [], ""⟩ before
  have unknown : (inOrder config spec directory templates tree before).reports.lookup number =
      none := by
    refine lookup_eq_none fun entry known same => first ?_
    rw [inOrder, reports, List.nil_append] at known
    exact same ▸ numbers entry known
  rw [inOrder_append, List.foldl_cons, finish_of_some h]
  obtain ⟨more, all, -⟩ := exists_reports_foldl config spec directory templates _ later
  rw [all, List.append_assoc, List.lookup_append, unknown, Option.none_or, List.cons_append,
    List.lookup_cons_self]

theorem getElem?_filterMap {α β : Type} {f : α → Option β} {l : List α}
    (all : ∀ a ∈ l, (f a).isSome = true) (n : Nat) : (l.filterMap f)[n]? = l[n]?.bind f := by
  induction l generalizing n with
  | nil => simp
  | cons a rest ih =>
    obtain ⟨b, h⟩ := Option.isSome_iff_exists.1 (all a (by simp))
    rw [List.filterMap_cons_some h]
    cases n with
    | zero => simp [h]
    | succ n => simpa using ih (fun c known => all c (by simp [known])) n

theorem length_sorted_le (w : Workshop) (count : Nat) : (w.sorted count).length ≤ count := by
  simpa [sorted] using List.length_filterMap_le (w.reports.lookup ·) (List.range count)

theorem exists_split {order : List Nat} {count number : Nat}
    (finished : order.Perm (List.range count)) (h : number < count) :
    ∃ before later, order = before ++ number :: later ∧ number ∉ before := by
  obtain ⟨before, later, rfl⟩ :=
    List.append_of_mem (finished.mem_iff.2 (List.mem_range.2 h))
  have nodup := finished.nodup_iff.2 List.nodup_range
  exact ⟨before, later, rfl, fun early =>
    (List.nodup_append.1 nodup).2.2 number early number (by simp) rfl⟩

/-- The entry of a document in the sorted reports, if all workers have finished. -/
theorem getElem?_sorted_inOrder {order before later : List Nat} {number : Nat} {template : Path}
    (finished : order.Perm (List.range templates.length))
    (split : order = before ++ number :: later) (first : number ∉ before)
    (h : templates[number]? = some template) :
    ((inOrder config spec directory templates tree order).sorted templates.length)[number]? =
      some (Work.ofTemplate config spec directory
        (inOrder config spec directory templates tree before).tree template).report := by
  have all : ∀ other ∈ List.range templates.length,
      ((inOrder config spec directory templates tree order).reports.lookup other).isSome = true := by
    intro other known
    rw [List.mem_range] at known
    obtain ⟨early, late, rfl, unseen⟩ := exists_split finished known
    rw [lookup_inOrder unseen (List.getElem?_eq_getElem known)]
    rfl
  have in_range : number < templates.length := (List.getElem?_eq_some_iff.1 h).1
  rw [sorted, getElem?_filterMap all, List.getElem?_range in_range, Option.bind_some, split]
  exact lookup_inOrder first h

end Workshop

/-! ## Outputs that are kept -/

/-- The tree that a run leaves is that of its workers, but for the report. -/
theorem Outcome.tree_conclude (r : Rendering) (w : Workshop) :
    (Outcome.conclude r w).tree = w.tree ∨
      ∃ path text place, r.report = some path ∧ w.tree.receiver path = .ok place ∧
        (Outcome.conclude r w).tree = w.tree.put place (.file text) := by
  unfold Outcome.conclude
  cases report : r.report with
  | none =>
    left
    simp only [Except.toOption, Option.getD_some]
    split <;> rfl
  | some path =>
    cases received : w.tree.receiver path with
    | error cause =>
      left
      simp only [FileTree.write_of_error received, Outcome.failure]
    | ok place =>
      right
      refine ⟨path, Report.write (w.sorted r.templates.length), place, rfl, received, ?_⟩
      simp only [FileTree.write_of_receiver received, Except.toOption, Option.getD_some]
      split <;> rfl

/--
Whether the outputs of a run are spread: none of them is written where the output or the dump of
another document or the report is written.
-/
structure Spread (config : Config) (r : Rendering) (directory : Path) (tree : FileTree) : Prop where
  kept : MadeOrKept config tree
  documents : ∀ (i j : Nat) template other place, i ≠ j → r.templates[i]? = some template →
    r.templates[j]? = some other →
    (prepared config tree).receiver (Work.target directory template) = .ok place →
    ¬(prepared config tree).LeadsTo (targets config (some directory) other) place
  report : ∀ path template place, r.report = some path → template ∈ r.templates →
    (prepared config tree).receiver (Work.target directory template) = .ok place →
    (prepared config tree).receiver path ≠ .ok place

/--
If the outputs of a run are spread, in whatever order its workers finish, every report without an
error names the path of a file that holds in the end what was generated for the document.
-/
theorem Outcome.read_output {config : Config} {spec : Spec} {r : Rendering} {directory : Path}
    {tree : FileTree} {order : List Nat} {number : Nat} {report : Report}
    (to_directory : r.output = some directory) (spread : Spread config r directory tree)
    (finished : order.Perm (List.range r.templates.length))
    (entry : ((Workshop.inOrder config spec r.output r.templates tree order).sorted
      r.templates.length)[number]? = some report)
    (fine : report.error = none) :
    ∃ before later template e path, order = before ++ number :: later ∧
      r.templates[number]? = some template ∧
      (Generation.ofFile config (Workshop.inOrder config spec r.output r.templates tree before).tree
        spec template).result = .ok e ∧
      report.output = some path ∧
      (conclude r (Workshop.inOrder config spec r.output r.templates tree order)).tree.read path =
        .ok e.output := by
  have in_range : number < r.templates.length :=
    (List.getElem?_eq_some_iff.1 entry).1.trans_le (Workshop.length_sorted_le _ _)
  obtain ⟨before, later, split, first⟩ := Workshop.exists_split finished in_range
  have at_number := List.getElem?_eq_getElem in_range
  generalize r.templates[number] = template at at_number
  rw [Workshop.getElem?_sorted_inOrder finished split first at_number, Option.some.injEq] at entry
  subst entry
  have stage : Stage config tree (fun _ => True)
      (Workshop.inOrder config spec r.output r.templates tree before).tree :=
    Workshop.stage_inOrder spread.kept spec (by simp) before
  rw [to_directory] at fine stage ⊢
  obtain ⟨e, place, result, output, received, written, made, same⟩ :=
    Work.exists_output spread.kept stage spec directory template fine
  -- Whoever finishes later is another document, and writes elsewhere.
  have apart : ∀ other ∈ later, ∀ later_template, r.templates[other]? = some later_template →
      ¬(prepared config tree).LeadsTo (targets config (some directory) later_template) place := by
    intro other known later_template h
    have nodup := finished.nodup_iff.2 List.nodup_range
    rw [split, List.nodup_append, List.nodup_cons] at nodup
    refine spread.documents number other template later_template place ?_ at_number h received
    rintro rfl
    exact nodup.2.1.1 known
  obtain ⟨ways, kept⟩ := Workshop.node?_foldl made spec (some directory) r.templates
    (Workshop.finish config spec (some directory) r.templates
      (Workshop.inOrder config spec (some directory) r.templates tree before) number)
    (by rw [Workshop.finish_of_some at_number]; exact same) apart
  rw [← List.foldl_cons, ← Workshop.inOrder_append, ← split] at ways kept
  rw [Workshop.finish_of_some at_number] at kept
  refine ⟨before, later, template, e, _, split, at_number, result, output, ?_⟩
  generalize Workshop.inOrder config spec (some directory) r.templates tree order = w at ways kept
  have in_place := kept.trans written
  obtain unchanged | ⟨path, text, other, reported, reported_to, changed⟩ := tree_conclude r w
  · rw [unchanged]
    exact FileTree.read_of_receiver (ways.receiver received) in_place
  · have elsewhere : place ≠ other := by
      rintro rfl
      exact spread.report path template place reported (List.mem_of_getElem? at_number) received
        (ways.symm.receiver reported_to)
    rw [changed]
    have free := (FileTree.receiver_eq_ok.1 reported_to).2
    have same_ways := ways.trans (FileTree.sameWays_put free text)
    refine FileTree.read_of_receiver (same_ways.receiver received) ?_
    rw [FileTree.node?_put_of_ne _ _ elsewhere]
    exact in_place

/-- Two documents of one line each, and what there is beside them. -/
def pages (more : List (Place × Node)) : FileTree :=
  ⟨[], [(["a"], .file "A"), (["b"], .file "B")] ++ more⟩

theorem realPlace_pages (more : List (Place × Node)) :
    (pages more).realPlace ⟨"a"⟩ = .ok ["a"] ∧ (pages more).realPlace ⟨"b"⟩ = .ok ["b"] := by
  have pieces : (Path.mk "a").pieces = ["a"] ∧ (Path.mk "b").pieces = ["b"] := ⟨rfl, rfl⟩
  simp [pages, FileTree.realPlace, FileTree.locate, pieces, FileTree.walk, FileTree.node?,
    Path.isAbsolute, List.lookup]

theorem compileFile_pages (dumps : Option Path) {more : List (Place × Node)}
    (no_prelude : more.lookup ["_macros.rhai"] = none) :
    Generation.compileFile { dumpDir := dumps } (pages more) ⟨[]⟩ ⟨"a"⟩ =
        .ok (Emitter.alone ⟨⟨"a"⟩, "A"⟩) ∧
      Generation.compileFile { dumpDir := dumps } (pages more) ⟨[]⟩ ⟨"b"⟩ =
        .ok (Emitter.alone ⟨⟨"b"⟩, "B"⟩) := by
  have beside : (Path.mk "a").directory.join "_macros.rhai" = ⟨"./_macros.rhai"⟩ ∧
      (Path.mk "b").directory.join "_macros.rhai" = ⟨"./_macros.rhai"⟩ := by
    decide +kernel
  have missing : (pages more).isFile ⟨"./_macros.rhai"⟩ = false := by
    have pieces : (Path.mk "./_macros.rhai").pieces = [".", "_macros.rhai"] := rfl
    simp [pages, FileTree.isFile, FileTree.at?, FileTree.realPlace, FileTree.locate, pieces,
      FileTree.walk, FileTree.node?, Path.isAbsolute, List.lookup, no_prelude]
  have no_script : Config.isScript {} ⟨"a"⟩ = false ∧ Config.isScript {} ⟨"b"⟩ = false := by
    decide +kernel
  exact ⟨@Generation.compileFile_alone { dumpDir := dumps } (pages more) ⟨"a"⟩ ["a"] "A"
      (realPlace_pages more).1 rfl (beside.1 ▸ missing) no_script.1 (by decide +kernel) ⟨[]⟩,
    @Generation.compileFile_alone { dumpDir := dumps } (pages more) ⟨"b"⟩ ["b"] "B"
      (realPlace_pages more).2 rfl (beside.2 ▸ missing) no_script.2 (by decide +kernel) ⟨[]⟩⟩

theorem run_page :
    ((Emitter.alone ⟨⟨"a"⟩, "A"⟩).run (Generation.options {}) ⟨[]⟩).1 = .ok ⟨"A", [], 1⟩ ∧
      ((Emitter.alone ⟨⟨"b"⟩, "B"⟩).run (Generation.options {}) ⟨[]⟩).1 = .ok ⟨"B", [], 1⟩ := by
  constructor
  all_goals
    refine Expansion.ok_of_toOption ?_
    rw [Emitter.run, Emitter.program, Script.parse, Script.Parser.run, Emitter.tokens_source]
    decide +kernel

theorem Outcome.read_output_of_pages :
    (conclude ⟨[⟨"a"⟩, ⟨"b"⟩], ⟨"s"⟩, some ⟨"o"⟩, false, false, none, none, none⟩
      (Workshop.inOrder {} ⟨[]⟩ (some ⟨"o"⟩) [⟨"a"⟩, ⟨"b"⟩] (pages [(["o"], .directory)])
        [1, 0])).tree.read ⟨"o/b"⟩ = .ok "B" := by
  have first_target : Work.target ⟨"o"⟩ ⟨"a"⟩ = ⟨"o/a"⟩ := by decide +kernel
  have second_target : Work.target ⟨"o"⟩ ⟨"b"⟩ = ⟨"o/b"⟩ := by decide +kernel
  have to_first : (pages [(["o"], .directory)]).receiver ⟨"o/a"⟩ = .ok ["o", "a"] := by cbv
  have to_second : (pages [(["o"], .directory)]).receiver ⟨"o/b"⟩ = .ok ["o", "b"] := by cbv
  obtain ⟨result, work⟩ := @Work.ofTemplate_of_run {} _ ⟨[]⟩ (some ⟨"o"⟩) ⟨"b"⟩ _ _ rfl
    (@compileFile_pages none [(["o"], .directory)] rfl).2 run_page.2
  have finished : [1, 0].Perm (List.range 2) := by decide
  have entry : ((Workshop.inOrder {} ⟨[]⟩ (some ⟨"o"⟩) [⟨"a"⟩, ⟨"b"⟩] (pages [(["o"], .directory)])
      [1, 0]).sorted 2)[1]? = some ⟨⟨"b"⟩, some ⟨"o/b"⟩, [], 1, none⟩ := by
    refine (@Workshop.getElem?_sorted_inOrder {} _ ⟨[]⟩ (some ⟨"o"⟩) [⟨"a"⟩, ⟨"b"⟩] [1, 0] []
      [0] 1 ⟨"b"⟩ finished rfl (by simp) rfl).trans ?_
    change some (Work.ofTemplate {} ⟨[]⟩ (some ⟨"o"⟩) (pages _) ⟨"b"⟩).report = _
    rw [work, Work.deliver_of_receiver (second_target ▸ to_second), second_target]
  have first_targets : targets {} (some ⟨"o"⟩) ⟨"a"⟩ = [⟨"o/a"⟩] := by decide +kernel
  have second_targets : targets {} (some ⟨"o"⟩) ⟨"b"⟩ = [⟨"o/b"⟩] := by decide +kernel
  have spread : Spread {} ⟨[⟨"a"⟩, ⟨"b"⟩], ⟨"s"⟩, some ⟨"o"⟩, false, false, none, none, none⟩
      ⟨"o"⟩ (pages [(["o"], .directory)]) := by
    refine ⟨.inl (by intro directory h; cases h), ?_, by intro path template place h; cases h⟩
    rintro i j template other place ne hi hj received ⟨path, known, received'⟩
    change (pages [(["o"], .directory)]).receiver _ = _ at received received'
    rcases i with _ | _ | i <;> rcases j with _ | _ | j <;>
      simp only [List.getElem?_cons_zero, List.getElem?_cons_succ, List.getElem?_nil,
        Option.some.injEq, reduceCtorEq, ne_eq, not_true_eq_false] at ne hi hj
    · subst hi hj
      rw [second_targets, List.mem_singleton] at known
      rw [known, to_second] at received'
      rw [first_target, to_first, ← received'] at received
      simp at received
    · subst hi hj
      rw [first_targets, List.mem_singleton] at known
      rw [known, to_first] at received'
      rw [second_target, to_second, ← received'] at received
      simp at received
  obtain ⟨before, later, template, e, path, split, at_one, generated, output, kept⟩ :=
    Outcome.read_output rfl spread finished entry rfl
  have none_before : before = [] := by
    rcases before with _ | ⟨n, _ | ⟨m, more⟩⟩
    · rfl
    · simp at split
    · simp at split
  subst none_before
  obtain rfl : (⟨"b"⟩ : Path) = template := Option.some.inj at_one
  obtain rfl : Path.mk "o/b" = path := Option.some.inj output
  rw [kept]
  obtain rfl := Except.ok.inj (result.symm.trans generated)
  rfl

/-- Two documents of one name in two directories, and a directory with some outputs. -/
def twins (outputs : List (Place × Node)) : FileTree :=
  ⟨[], [(["a"], .directory), (["a", "x"], .file "A"), (["b"], .directory),
    (["b", "x"], .file "B"), (["o"], .directory)] ++ outputs⟩

theorem compileFile_twins {outputs : List (Place × Node)}
    (first : outputs.lookup ["a", "_macros.rhai"] = none)
    (second : outputs.lookup ["b", "_macros.rhai"] = none) :
    Generation.compileFile {} (twins outputs) ⟨[]⟩ ⟨"a/x"⟩ =
        .ok (Emitter.alone ⟨⟨"a/x"⟩, "A"⟩) ∧
      Generation.compileFile {} (twins outputs) ⟨[]⟩ ⟨"b/x"⟩ =
        .ok (Emitter.alone ⟨⟨"b/x"⟩, "B"⟩) := by
  have beside : (Path.mk "a/x").directory.join "_macros.rhai" = ⟨"a/_macros.rhai"⟩ ∧
      (Path.mk "b/x").directory.join "_macros.rhai" = ⟨"b/_macros.rhai"⟩ := by
    decide +kernel
  have pieces : (Path.mk "a/x").pieces = ["a", "x"] ∧ (Path.mk "b/x").pieces = ["b", "x"] ∧
      (Path.mk "a/_macros.rhai").pieces = ["a", "_macros.rhai"] ∧
      (Path.mk "b/_macros.rhai").pieces = ["b", "_macros.rhai"] := ⟨rfl, rfl, rfl, rfl⟩
  have missing : (twins outputs).isFile ⟨"a/_macros.rhai"⟩ = false ∧
      (twins outputs).isFile ⟨"b/_macros.rhai"⟩ = false := by
    simp [twins, FileTree.isFile, FileTree.at?, FileTree.realPlace, FileTree.locate, pieces,
      FileTree.walk, FileTree.node?, Path.isAbsolute, List.lookup, first, second]
  constructor
  · refine @Generation.compileFile_alone {} (twins outputs) ⟨"a/x"⟩ ["a", "x"] "A" ?_ rfl
      (beside.1 ▸ missing.1) (by decide +kernel) (by decide +kernel) ⟨[]⟩
    simp [twins, FileTree.realPlace, FileTree.locate, pieces, FileTree.walk, FileTree.node?,
      Path.isAbsolute, List.lookup]
  · refine @Generation.compileFile_alone {} (twins outputs) ⟨"b/x"⟩ ["b", "x"] "B" ?_ rfl
      (beside.2 ▸ missing.2) (by decide +kernel) (by decide +kernel) ⟨[]⟩
    simp [twins, FileTree.realPlace, FileTree.locate, pieces, FileTree.walk, FileTree.node?,
      Path.isAbsolute, List.lookup]

/-- The output of the first twin is lost to that of the second; both reports are without an error. -/
theorem Outcome.read_output_of_twins :
    (Workshop.inOrder {} ⟨[]⟩ (some ⟨"o"⟩) [⟨"a/x"⟩, ⟨"b/x"⟩] (twins []) [0, 1]).sorted 2 =
        [⟨⟨"a/x"⟩, some ⟨"o/x"⟩, [], 1, none⟩, ⟨⟨"b/x"⟩, some ⟨"o/x"⟩, [], 1, none⟩] ∧
      (Generation.ofFile {} (twins []) ⟨[]⟩ ⟨"a/x"⟩).result = .ok ⟨"A", [], 1⟩ ∧
      (conclude ⟨[⟨"a/x"⟩, ⟨"b/x"⟩], ⟨"s"⟩, some ⟨"o"⟩, false, false, none, none, none⟩
        (Workshop.inOrder {} ⟨[]⟩ (some ⟨"o"⟩) [⟨"a/x"⟩, ⟨"b/x"⟩] (twins []) [0, 1])).tree.read
        ⟨"o/x"⟩ = .ok "B" := by
  have first_run : ((Emitter.alone ⟨⟨"a/x"⟩, "A"⟩).run (Generation.options {}) ⟨[]⟩).1 =
      .ok ⟨"A", [], 1⟩ := by
    refine Expansion.ok_of_toOption ?_
    rw [Emitter.run, Emitter.program, Script.parse, Script.Parser.run, Emitter.tokens_source]
    decide +kernel
  have second_run : ((Emitter.alone ⟨⟨"b/x"⟩, "B"⟩).run (Generation.options {}) ⟨[]⟩).1 =
      .ok ⟨"B", [], 1⟩ := by
    refine Expansion.ok_of_toOption ?_
    rw [Emitter.run, Emitter.program, Script.parse, Script.Parser.run, Emitter.tokens_source]
    decide +kernel
  have target : Work.target ⟨"o"⟩ ⟨"a/x"⟩ = ⟨"o/x"⟩ ∧ Work.target ⟨"o"⟩ ⟨"b/x"⟩ = ⟨"o/x"⟩ := by
    decide +kernel
  have to_first : (twins []).receiver ⟨"o/x"⟩ = .ok ["o", "x"] := by cbv
  have to_second : (twins [(["o", "x"], .file "A")]).receiver ⟨"o/x"⟩ = .ok ["o", "x"] := by cbv
  obtain ⟨generated, first⟩ := @Work.ofTemplate_of_run {} _ ⟨[]⟩ (some ⟨"o"⟩) ⟨"a/x"⟩ _ _ rfl
    (@compileFile_twins [] rfl rfl).1 first_run
  obtain ⟨-, second⟩ := @Work.ofTemplate_of_run {} _ ⟨[]⟩ (some ⟨"o"⟩) ⟨"b/x"⟩ _ _ rfl
    (@compileFile_twins [(["o", "x"], .file "A")] rfl rfl).2 second_run
  rw [Work.deliver_of_receiver (target.1 ▸ to_first), target.1] at first
  rw [Work.deliver_of_receiver (target.2 ▸ to_second), target.2] at second
  have put_first : (twins []).put ["o", "x"] (.file "A") = twins [(["o", "x"], .file "A")] := rfl
  have put_second : (twins [(["o", "x"], .file "A")]).put ["o", "x"] (.file "B") =
      twins [(["o", "x"], .file "B")] := rfl
  have run : Workshop.inOrder {} ⟨[]⟩ (some ⟨"o"⟩) [⟨"a/x"⟩, ⟨"b/x"⟩] (twins []) [0, 1] =
      ⟨twins [(["o", "x"], .file "B")], [(0, ⟨⟨"a/x"⟩, some ⟨"o/x"⟩, [], 1, none⟩),
        (1, ⟨⟨"b/x"⟩, some ⟨"o/x"⟩, [], 1, none⟩)], ""⟩ := by
    rw [put_first] at first
    rw [put_second] at second
    simp only [Workshop.inOrder, List.foldl_cons, List.foldl_nil, Workshop.finish,
      List.getElem?_cons_zero, List.getElem?_cons_succ, first, second]
    rfl
  rw [run]
  refine ⟨rfl, generated, ?_⟩
  exact @FileTree.read_of_receiver _ _ ["o", "x"] _ (by cbv) (by decide)

end Command

end Stencil
