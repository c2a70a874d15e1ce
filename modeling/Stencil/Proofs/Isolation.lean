import Stencil.Proofs.Delivery

/-!
# Documents rendered together

A document is compiled from the files that it looks up.  If the files that a run writes are none of
these, and no written file stands in the way of another, a worker reports the same in every tree of
the run, so that the reports do not depend on the order in which the workers finish.
-/

namespace Stencil

open FileTree (Filled SameWays AgreeOn)

/-! ## Looking up files -/

namespace FileTree

variable {tree other third : FileTree} {path : Path}

theorem isFile_iff : tree.isFile path = true ↔
    ∃ place node, tree.realPlace path = .ok place ∧ tree.node? place = some node ∧
      tree.passage? place = none := by
  unfold isFile at? passage?
  cases real : tree.realPlace path with
  | error fault => simp
  | ok place =>
    dsimp only
    cases found : tree.node? place with
    | none => simp [found]
    | some node => cases node <;> simp [found]

/-- Two trees in which a path leads to the same file, or to no file. -/
structure SameFile (tree other : FileTree) (path : Path) : Prop where
  working : other.working = tree.working
  isFile : other.isFile path = tree.isFile path
  realPlace : tree.isFile path = true → other.realPlace path = tree.realPlace path
  node : ∀ place, tree.isFile path = true → tree.realPlace path = .ok place →
    other.node? place = tree.node? place

namespace SameFile

theorem trans (first : SameFile tree other path) (second : SameFile other third path) :
    SameFile tree third path where
  working := second.working.trans first.working
  isFile := second.isFile.trans first.isFile
  realPlace is_file := (second.realPlace (first.isFile.trans is_file)).trans
    (first.realPlace is_file)
  node place is_file real := (second.node place (first.isFile.trans is_file)
    ((first.realPlace is_file).trans real)).trans (first.node place is_file real)

theorem canonical (same : SameFile tree other path) (is_file : tree.isFile path = true) :
    other.canonical path = tree.canonical path := by
  simp only [FileTree.canonical, pathOf, same.realPlace is_file, same.working]

theorem read (same : SameFile tree other path) :
    Document.read other path = Document.read tree path := by
  unfold Document.read
  rw [same.isFile]
  cases is_file : tree.isFile path with
  | false => rfl
  | true =>
    obtain ⟨place, node, real, -, -⟩ := isFile_iff.1 is_file
    simp only [FileTree.read, same.realPlace is_file, real, same.node place is_file real, bind,
      Except.bind]

end SameFile

theorem AgreeOn.sameFile (agree : AgreeOn tree other path) : SameFile tree other path where
  working := agree.working
  isFile := agree.isFile
  realPlace _ := agree.realPlace
  node _ _ real := agree.node? real

/-- A path leads to the same file as long as nothing is written where it leads. -/
theorem Filled.sameFile {places : Place → Prop} (filled : Filled places tree other)
    (apart : ∀ place, tree.receiver path = .ok place → ¬places place) :
    SameFile tree other path := by
  have file_in {from_tree to_tree : FileTree} {place : Place} {node : Node}
      (same : SameWays from_tree to_tree) (real : from_tree.realPlace path = .ok place)
      (found : from_tree.node? place = some node) (free : from_tree.passage? place = none) :
      from_tree.receiver path = .ok place ∧ to_tree.receiver path = .ok place := by
    have received : from_tree.receiver path = .ok place :=
      receiver_eq_ok.2 ⟨locate_of_exists (endsThere_error _) (endsThere_error _) real
        (by simp [found]) _ _, free⟩
    exact ⟨received, same.receiver received⟩
  have real_of {place : Place} {node : Node} (t : FileTree) (received : t.receiver path = .ok place)
      (found : t.node? place = some node) : t.realPlace path = .ok place :=
    locate_of_exists endsThere_ok (endsThere_error _) (receiver_eq_ok.1 received).1
      (by simp [found]) _ _
  have onward (is_file : tree.isFile path = true) : ∃ place node,
      tree.realPlace path = .ok place ∧ other.realPlace path = .ok place ∧
      tree.node? place = some node ∧ other.node? place = some node ∧
      other.passage? place = none := by
    obtain ⟨place, node, real, found, free⟩ := isFile_iff.1 is_file
    obtain ⟨received, received'⟩ := file_in filled.toSameWays real found free
    have kept := filled.kept place (apart place received)
    exact ⟨place, node, real, real_of other received' (kept.trans found), found,
      kept.trans found, (filled.passage place).trans free⟩
  have back (is_file : other.isFile path = true) : tree.isFile path = true := by
    obtain ⟨place, node, real, found, free⟩ := isFile_iff.1 is_file
    obtain ⟨-, received⟩ := file_in filled.toSameWays.symm real found free
    have kept := filled.kept place (apart place received)
    exact isFile_iff.2 ⟨place, node, real_of tree received (kept.symm.trans found),
      kept.symm.trans found, (filled.symm.passage place).trans free⟩
  refine ⟨filled.working, ?_, fun is_file => ?_, fun place is_file real => ?_⟩
  · rw [Bool.eq_iff_iff]
    refine ⟨back, fun is_file => ?_⟩
    obtain ⟨place, node, -, real, -, found, free⟩ := onward is_file
    exact isFile_iff.2 ⟨place, node, real, found, free⟩
  · obtain ⟨place, node, real, real', -⟩ := onward is_file
    rw [real, real']
  · obtain ⟨found, node, real', -, here, there, -⟩ := onward is_file
    obtain rfl := Except.ok.inj (real.symm.trans real')
    rw [here, there]

end FileTree

open FileTree (SameFile)

namespace Inclusion

variable {tree other : FileTree} {spec : Spec}

theorem resolve_congr {expr : String} {line : SourceLine}
    (same : ∀ relative, target spec expr = .ok relative →
      SameFile tree other (line.origin.directory.join relative)) (included : List Path) :
    resolve other spec included expr line = resolve tree spec included expr line := by
  unfold resolve
  cases named : target spec expr with
  | error why => rfl
  | ok relative =>
    have here := same relative named
    dsimp only
    rw [here.isFile]
    cases is_file : tree.isFile (line.origin.directory.join relative) with
    | false => rfl
    | true => rw [here.canonical is_file, here.read]

end Inclusion

/-- The path that a directive leads to, if its expression names one. -/
def Met.path? (spec : Spec) (m : Met) : Option Path :=
  (Inclusion.target spec m.expr).toOption.map m.line.origin.directory.join

namespace Expansion

variable {tree other : FileTree} {spec : Spec}

/-- An expansion is the same in a tree where the directives it meets lead to the same files. -/
theorem Expands.of_sameFile {rounds : Nat} {included : List Path} {lines : List SourceLine}
    {met : List Met} {outcome : Except Fault Expansion}
    (h : Expands tree spec rounds included lines met outcome)
    (same : ∀ m ∈ met, ∀ path, m.path? spec = some path → SameFile tree other path) :
    Expands other spec rounds included lines met outcome := by
  have again {m : Met} {included after : List Path} {result : Except Fault Inclusion}
      (here : ∀ path, m.path? spec = some path → SameFile tree other path)
      (resolved : Inclusion.resolveNext tree spec included m.expr m.line = (result, after)) :
      Inclusion.resolveNext other spec included m.expr m.line = (result, after) := by
    rw [Inclusion.resolveNext_eq_iff] at resolved ⊢
    rw [Inclusion.resolve_congr fun relative named => here _ (by simp [Met.path?, named,
      Except.toOption])]
    exact resolved
  induction h with
  | done => exact .done
  | kept kind later ih => exact .kept kind (ih same)
  | @failed _ line _ expr fault _ kind resolved =>
    obtain ⟨here, -⟩ := List.forall_mem_cons.1 same
    exact .failed kind (@again ⟨line, expr, .error fault⟩ _ _ _ here resolved)
  | @refused _ _ line _ expr file _ _ _ kind resolved later ih =>
    obtain ⟨here, rest⟩ := List.forall_mem_cons.1 same
    exact .refused kind (@again ⟨line, expr, .ok (.refused file)⟩ _ _ _ here resolved) (ih rest)
  | @spliced _ _ line _ expr file lines _ _ _ kind resolved later ih =>
    obtain ⟨here, rest⟩ := List.forall_mem_cons.1 same
    exact .spliced kind (@again ⟨line, expr, .ok (.spliced file lines)⟩ _ _ _ here resolved)
      (ih rest)

end Expansion

theorem Expansion.Expands.met_eq_nil {tree : FileTree} {spec : Spec} {rounds : Nat}
    {included : List Path} {lines : List SourceLine} {met : List Met}
    {outcome : Except Fault Expansion} (h : Expands tree spec rounds included lines met outcome)
    (kept : ∀ line ∈ lines, (Line.classify line.text).isInclude = false) : met = [] := by
  have no_include {line : SourceLine} {rest : List SourceLine} {expr : String}
      (kept : ∀ other ∈ line :: rest, (Line.classify other.text).isInclude = false)
      (kind : Line.classify line.text = .include expr) : False := by
    have := kept line (by simp)
    simp [kind, Line.isInclude] at this
  induction h with
  | done => rfl
  | kept kind later ih => exact ih fun line known => kept line (List.mem_cons_of_mem _ known)
  | failed kind resolved => exact (no_include kept kind).elim
  | refused kind resolved later ih => exact (no_include kept kind).elim
  | spliced kind resolved later ih => exact (no_include kept kind).elim

namespace Generation

variable {config : Config} {tree other : FileTree} {spec : Spec}

/-- The paths that the compilation of a file looks up. -/
inductive LooksUp (config : Config) (tree : FileTree) (spec : Spec) (file : Path) : Path → Prop
  | document : LooksUp config tree spec file file
  | prelude : LooksUp config tree spec file (file.directory.join config.preludeName)
  | included {document : Document} {rounds : Nat} {met : List Met}
      {outcome : Except Fault Expansion} {m : Met} {path : Path}
      (read : Document.read tree file = .ok document)
      (expands : Expansion.Expands tree spec rounds [tree.canonical file]
        (document.lines ++ [Emitter.closing document]) met outcome)
      (is_met : m ∈ met) (leads : m.path? spec = some path) : LooksUp config tree spec file path

/-- A document without includes looks up itself and its prelude. -/
theorem LooksUp.eq_or_eq {file path : Path} (looks : LooksUp config tree spec file path)
    (kept : ∀ document, Document.read tree file = .ok document →
      ∀ line ∈ document.lines, (Line.classify line.text).isInclude = false) :
    path = file ∨ path = file.directory.join config.preludeName := by
  cases looks with
  | document => exact .inl rfl
  | prelude => exact .inr rfl
  | included read expands is_met leads =>
    rename_i document rounds met outcome m
    have none_met : met = [] := expands.met_eq_nil (by
      rw [List.forall_mem_append, List.forall_mem_singleton, Emitter.classify_closing]
      exact ⟨kept document read, rfl⟩)
    rw [none_met] at is_met
    cases is_met

theorem sameFile_congr {a b : Path} (first : SameFile tree other a) (second : SameFile tree other b)
    (is_first : tree.isFile a = true) (is_second : tree.isFile b = true) :
    Prelude.sameFile other a b = Prelude.sameFile tree a b := by
  rw [Prelude.sameFile, Prelude.sameFile, first.realPlace is_first, second.realPlace is_second]

theorem isFile_of_read {path : Path} {document : Document}
    (read : Document.read tree path = .ok document) : tree.isFile path = true := by
  cases is_file : tree.isFile path with
  | true => rfl
  | false => simp [Document.read, is_file] at read

/-- A file is compiled alike in a tree where what it looks up leads to the same files. -/
theorem compileFile_congr {file : Path}
    (same : ∀ path, LooksUp config tree spec file path → SameFile tree other path) :
    compileFile config other spec file = compileFile config tree spec file := by
  have here := same file .document
  unfold compileFile
  rw [here.read]
  cases read : Document.read tree file with
  | error fault => rfl
  | ok document =>
    have is_file := isFile_of_read read
    obtain rfl := Document.path_of_read read
    have prelude : Prelude.locate other document config.preludeName =
        Prelude.locate tree document config.preludeName := by
      have beside := same _ .prelude
      unfold Prelude.locate
      dsimp only
      rw [beside.isFile, beside.read]
      cases is_prelude : tree.isFile (document.path.directory.join config.preludeName) with
      | false => rfl
      | true => rw [sameFile_congr beside here is_prelude is_file]
    have expansion : Expansion.ofLines other spec [other.canonical document.path]
          (document.lines ++ [Emitter.closing document]) =
        Expansion.ofLines tree spec [tree.canonical document.path]
          (document.lines ++ [Emitter.closing document]) := by
      obtain ⟨rounds, met, -, expands⟩ := @Expansion.expands_ofLines tree spec
        [tree.canonical document.path] (document.lines ++ [Emitter.closing document])
      rw [here.canonical is_file]
      exact (expands.of_sameFile fun m known path leads =>
        same path (.included read expands known leads)).eq_ofLines
    simp only [bind, Except.bind, compile, prelude, Emitter.compile_eq_map, expansion]

end Generation

open Generation (LooksUp MadeOrKept Stage prepared)

namespace Command

open Demand (targets)

/-! ## Runs whose documents keep apart -/

/-- The places at which a run writes the dumps and outputs of some documents. -/
def Written (config : Config) (directory : Option Path) (templates : List Path) (tree : FileTree)
    (place : Place) : Prop :=
  ∃ template ∈ templates,
    (prepared config tree).LeadsTo (targets config directory template) place

/-- Whether no written file is one that a document looks up. -/
def Unread (config : Config) (spec : Spec) (directory : Option Path) (templates : List Path)
    (tree : FileTree) : Prop :=
  ∀ template ∈ templates, ∀ path, LooksUp config tree spec template path →
    ∀ place, (prepared config tree).receiver path = .ok place →
      ¬Written config directory templates tree place

/--
Whether the documents of a run keep apart: no directory made for dumps is on the way of a path that a
document looks up, no written file is one that it looks up, and none stands in the way of another.
-/
structure Apart (config : Config) (spec : Spec) (directory : Option Path) (templates : List Path)
    (tree : FileTree) : Prop where
  kept : MadeOrKept config tree
  made : ∀ template ∈ templates, ∀ path, LooksUp config tree spec template path →
    ∀ place ∈ tree.way path, (prepared config tree).node? place = tree.node? place
  unread : Unread config spec directory templates tree
  ways : ∀ template ∈ templates, ∀ path ∈ targets config directory template,
    ∀ place ∈ (prepared config tree).way path, Written config directory templates tree place →
      (prepared config tree).receiver path = .ok place

theorem working_prepared (config : Config) (tree : FileTree) :
    (prepared config tree).working = tree.working := by
  unfold prepared
  cases config.dumpDir with
  | none => rfl
  | some directory => exact FileTree.working_makeAll tree directory

namespace Apart

variable {config : Config} {spec : Spec} {directory : Option Path} {templates : List Path}
  {base tree other : FileTree} {template : Path}

theorem sameFile (apart : Apart config spec directory templates base)
    (stage : Stage config base (Written config directory templates base) tree)
    (known : template ∈ templates) {path : Path} (looks : LooksUp config base spec template path) :
    SameFile base tree path := by
  cases stage with
  | fresh => exact AgreeOn.sameFile ⟨rfl, fun place _ => rfl⟩
  | filled made filled =>
    have directories : AgreeOn base (prepared config base) path :=
      ⟨working_prepared config base, apart.made template known path looks⟩
    exact directories.sameFile.trans (filled.sameFile (apart.unread template known path looks))

theorem compileFile (apart : Apart config spec directory templates base)
    (stage : Stage config base (Written config directory templates base) tree)
    (known : template ∈ templates) :
    Generation.compileFile config tree spec template =
      Generation.compileFile config base spec template :=
  Generation.compileFile_congr fun _ looks => apart.sameFile stage known looks

/-- Where a target leads, or why it leads nowhere, is settled before any file is written. -/
theorem receiver (apart : Apart config spec directory templates base)
    (filled : Filled (Written config directory templates base) (prepared config base) tree)
    (known : template ∈ templates) {path : Path} (target : path ∈ targets config directory template) :
    tree.receiver path = (prepared config base).receiver path := by
  cases received : (prepared config base).receiver path with
  | ok place => exact filled.toSameWays.receiver received
  | error fault =>
    rw [← received]
    refine (filled.agreeOn fun place onward written => ?_).receiver
    rw [apart.ways template known path target place onward written] at received
    cases received

/-- Why a dump is not made. -/
theorem trouble_dump (config : Config) (tree : FileTree) (emitter : Emitter) :
    (Generation.dump config tree emitter).2 =
      config.dumpDir.bind fun directory =>
        match (tree.makeAll directory).2 with
        | some cause => some (.file cause)
        | none =>
          match (prepared config tree).receiver (Generation.dumpPath directory emitter) with
          | .error cause => some (.file cause)
          | .ok _ => none := by
  unfold Generation.dump prepared
  cases config.dumpDir with
  | none => rfl
  | some directory =>
    rcases pair : tree.makeAll directory with ⟨made, trouble⟩
    cases trouble with
    | some cause => simp [pair]
    | none =>
      simp only [pair, Option.bind_some]
      cases received : made.receiver (Generation.dumpPath directory emitter) with
      | error cause => rw [FileTree.write_of_error received]
      | ok place => rw [FileTree.write_of_receiver received]

theorem trouble (apart : Apart config spec directory templates base)
    (stage : Stage config base (Written config directory templates base) tree)
    (known : template ∈ templates) {emitter : Emitter} (document : emitter.document = template) :
    (Generation.dump config tree emitter).2 = (Generation.dump config base emitter).2 := by
  rw [trouble_dump, trouble_dump]
  cases dumps : config.dumpDir with
  | none => rfl
  | some d =>
    have target : Generation.dumpPath d emitter ∈ targets config directory template := by
      rw [Generation.dumpPath, document]
      exact dump_mem_targets directory dumps
    rw [Option.bind_some, Option.bind_some, stage.trouble dumps,
      apart.receiver stage.prepared known target]

theorem result (apart : Apart config spec directory templates base)
    (stage : Stage config base (Written config directory templates base) tree)
    (known : template ∈ templates) :
    (Generation.ofFile config tree spec template).result =
      (Generation.ofFile config base spec template).result := by
  unfold Generation.ofFile
  rw [apart.compileFile stage known]
  cases compiled : Generation.compileFile config base spec template with
  | error fault => rfl
  | ok emitter =>
    have same := apart.trouble stage known (Generation.document_of_compileFile compiled)
    dsimp only
    rw [same]

theorem filled (apart : Apart config spec directory templates base)
    (stage : Stage config base (Written config directory templates base) tree)
    (known : template ∈ templates) {e : Emission}
    (result : (Generation.ofFile config tree spec template).result = .ok e) :
    Filled (Written config directory templates base) (prepared config base)
      (Generation.ofFile config tree spec template).tree := by
  have generated := Generation.ofFile_filled apart.kept stage spec template
    fun dumps h => dump_mem_targets directory h
  obtain ⟨-, step⟩ := generated.resolve_left fun failed => failed.2 e result
  exact stage.prepared.trans (step.mono fun place leads => ⟨template, known, leads⟩)

theorem report_deliver {d : Path} (same : tree.receiver (Work.target d template) =
    other.receiver (Work.target d template)) (e : Emission) :
    (Work.deliver (some d) template tree e).report =
      (Work.deliver (some d) template other e).report := by
  cases received : other.receiver (Work.target d template) with
  | error cause =>
    rw [Work.deliver_of_error received, Work.deliver_of_error (same.trans received)]
  | ok place =>
    rw [Work.deliver_of_receiver received, Work.deliver_of_receiver (same.trans received)]

/-- A worker reports in every tree of a run what it reports in the first. -/
theorem report (apart : Apart config spec directory templates base)
    (stage : Stage config base (Written config directory templates base) tree)
    (known : template ∈ templates) :
    (Work.ofTemplate config spec directory tree template).report =
      (Work.ofTemplate config spec directory base template).report := by
  have same := apart.result stage known
  cases result : (Generation.ofFile config base spec template).result with
  | error fault =>
    rw [Work.ofTemplate_of_error result, Work.ofTemplate_of_error (same.trans result)]
  | ok e =>
    rw [Work.ofTemplate_of_ok result, Work.ofTemplate_of_ok (same.trans result)]
    cases directory with
    | none => rfl
    | some d =>
      have target := Work.target_mem_targets config d template
      refine report_deliver ?_ e
      rw [apart.receiver (apart.filled stage known (same.trans result)) known target,
        apart.receiver (apart.filled .fresh known result) known target]

end Apart

/-! ## The reports of a run -/

namespace Workshop

variable {config : Config} {spec : Spec} {directory : Option Path} {templates : List Path}
  {tree : FileTree}

/-- A document rendered alone has one entry, the report of its worker. -/
theorem sorted_single (config : Config) (spec : Spec) (directory : Option Path) (tree : FileTree)
    (template : Path) :
    (inOrder config spec directory [template] tree [0]).sorted 1 =
      [(Work.ofTemplate config spec directory tree template).report] := by
  rfl

end Workshop

namespace Outcome

/-- A run whose report can be written fails if and only if an entry has an error. -/
theorem exit_conclude {r : Rendering} {w : Workshop}
    (writable : ∀ path, r.report = some path → ∃ place, w.tree.receiver path = .ok place) :
    (conclude r w).exit ≠ 0 ↔
      ∃ entry ∈ w.sorted r.templates.length, entry.error.isSome = true := by
  have count : ((w.sorted r.templates.length).filter (·.error.isSome)).length = 0 ↔
      ¬∃ entry ∈ w.sorted r.templates.length, entry.error.isSome = true := by
    simp [List.filter_eq_nil_iff]
  have counted : (conclude r w).exit =
      if ((w.sorted r.templates.length).filter (·.error.isSome)).length = 0 then 0 else 1 := by
    unfold conclude
    cases report : r.report with
    | none =>
      dsimp only
      split <;> rfl
    | some path =>
      obtain ⟨place, received⟩ := writable path report
      simp only [FileTree.write_of_receiver received]
      split <;> rfl
  rw [counted]
  split
  · rename_i none_failed
    exact ⟨fun h => absurd rfl h, fun h => absurd h (count.1 none_failed)⟩
  · rename_i some_failed
    exact ⟨fun _ => not_not.1 fun h => some_failed (count.2 h), fun _ => Nat.one_ne_zero⟩

theorem ofTemplate_of_trouble {config : Config} {tree after : FileTree} {spec : Spec}
    {directory : Option Path} {template : Path} {emitter : Emitter} {fault : Fault}
    (compiled : Generation.compileFile config tree spec template = .ok emitter)
    (dumped : Generation.dump config tree emitter = (after, some fault)) :
    Work.ofTemplate config spec directory tree template =
      ⟨after, ⟨template, none, [], 0, some fault.message⟩, ""⟩ := by
  simp [Work.ofTemplate, Generation.ofFile, compiled, dumped]

theorem ofTemplate_of_dump {config : Config} {tree after : FileTree} {spec : Spec}
    {directory : Option Path} {template : Path} {emitter : Emitter} {e : Emission}
    (compiled : Generation.compileFile config tree spec template = .ok emitter)
    (dumped : Generation.dump config tree emitter = (after, none))
    (done : (emitter.run (Generation.options config) spec).1 = .ok e) :
    Work.ofTemplate config spec directory tree template =
      Work.deliver directory template after e := by
  simp [Work.ofTemplate, Generation.ofFile, compiled, dumped, done]

theorem dump_of_trouble {config : Config} {tree after : FileTree} {directory : Path}
    {cause : FileFault} (dumps : config.dumpDir = some directory)
    (made : tree.makeAll directory = (after, some cause)) (emitter : Emitter) :
    Generation.dump config tree emitter = (after, some (.file cause)) := by
  simp only [Generation.dump, dumps, made]

theorem dump_of_receiver {config : Config} {tree after : FileTree} {directory : Path}
    {emitter : Emitter} {place : Place} (dumps : config.dumpDir = some directory)
    (made : tree.makeAll directory = (after, none))
    (received : after.receiver (Generation.dumpPath directory emitter) = .ok place) :
    Generation.dump config tree emitter = (after.put place (.file emitter.source), none) := by
  simp only [Generation.dump, dumps, made, FileTree.write_of_receiver received]

theorem receiver_pages {more : List (Place × Node)}
    (no_prelude : more.lookup ["_macros.rhai"] = none) :
    (pages more).receiver ⟨"a"⟩ = .ok ["a"] ∧ (pages more).receiver ⟨"b"⟩ = .ok ["b"] ∧
      (pages more).receiver ⟨"./_macros.rhai"⟩ = .ok ["_macros.rhai"] := by
  have pieces : (Path.mk "a").pieces = ["a"] ∧ (Path.mk "b").pieces = ["b"] ∧
      (Path.mk "./_macros.rhai").pieces = [".", "_macros.rhai"] := ⟨rfl, rfl, rfl⟩
  simp [pages, FileTree.receiver, FileTree.locate, pieces, FileTree.walk, FileTree.passage?,
    FileTree.node?, Path.isAbsolute, List.lookup, no_prelude, bind, Except.bind]

theorem looksUp_page {dumps : Option Path} {more : List (Place × Node)} {template path : Path}
    (known : template = ⟨"a"⟩ ∨ template = ⟨"b"⟩)
    (looks : LooksUp { dumpDir := dumps } (pages more) ⟨[]⟩ template path) :
    path = ⟨"a"⟩ ∨ path = ⟨"b"⟩ ∨ path = ⟨"./_macros.rhai"⟩ := by
  obtain ⟨first, second⟩ := realPlace_pages more
  have beside : (Path.mk "a").directory.join "_macros.rhai" = ⟨"./_macros.rhai"⟩ ∧
      (Path.mk "b").directory.join "_macros.rhai" = ⟨"./_macros.rhai"⟩ := by
    decide +kernel
  have kept : ∀ line ∈ (Document.mk ⟨"a"⟩ "A").lines ++ (Document.mk ⟨"b"⟩ "B").lines,
      (Line.classify line.text).isInclude = false := by
    decide +kernel
  obtain ⟨kept_first, kept_second⟩ := List.forall_mem_append.1 kept
  obtain rfl | rfl := known
  · have read := Document.read_of_realPlace first (rfl : _ = some (Node.file "A"))
    obtain rfl | rfl := looks.eq_or_eq fun document h =>
      Except.ok.inj (read.symm.trans h) ▸ kept_first
    · exact .inl rfl
    · exact .inr (.inr beside.1)
  · have read := Document.read_of_realPlace second (rfl : _ = some (Node.file "B"))
    obtain rfl | rfl := looks.eq_or_eq fun document h =>
      Except.ok.inj (read.symm.trans h) ▸ kept_second
    · exact .inr (.inl rfl)
    · exact .inr (.inr beside.2)

theorem unread_pages {dumps directory : Option Path} {more made : List (Place × Node)}
    (made_pages : prepared { dumpDir := dumps } (pages more) = pages made)
    (no_prelude : made.lookup ["_macros.rhai"] = none)
    (elsewhere : ∀ place, Written { dumpDir := dumps } directory [⟨"a"⟩, ⟨"b"⟩] (pages more) place →
      place ∉ [["a"], ["b"], ["_macros.rhai"]]) :
    Unread { dumpDir := dumps } ⟨[]⟩ directory [⟨"a"⟩, ⟨"b"⟩] (pages more) := by
  intro template known path looks place received written
  rw [made_pages] at received
  obtain ⟨first, second, third⟩ := receiver_pages no_prelude
  refine elsewhere place written ?_
  have known : template = ⟨"a"⟩ ∨ template = ⟨"b"⟩ := by simpa using known
  obtain rfl | rfl | rfl := looksUp_page known looks
  · rw [← Except.ok.inj (first.symm.trans received)]
    decide
  · rw [← Except.ok.inj (second.symm.trans received)]
    decide
  · rw [← Except.ok.inj (third.symm.trans received)]
    decide

theorem targets_pages : targets {} (some ⟨"o"⟩) ⟨"a"⟩ = [⟨"o/a"⟩] ∧
    targets {} (some ⟨"o"⟩) ⟨"b"⟩ = [⟨"o/b"⟩] := by
  decide +kernel

theorem written_pages {tree : FileTree} {place : Place}
    (written : Written {} (some ⟨"o"⟩) [⟨"a"⟩, ⟨"b"⟩] tree place) :
    tree.receiver ⟨"o/a"⟩ = .ok place ∨ tree.receiver ⟨"o/b"⟩ = .ok place := by
  obtain ⟨template, known, path, target, received⟩ := written
  have known : template = ⟨"a"⟩ ∨ template = ⟨"b"⟩ := by simpa using known
  obtain rfl | rfl := known
  · rw [targets_pages.1, List.mem_singleton] at target
    exact .inl (target ▸ received)
  · rw [targets_pages.2, List.mem_singleton] at target
    exact .inr (target ▸ received)

/-- A link that leads through the output of another document fails otherwise once that is there. -/
theorem reports_of_link :
    Unread {} ⟨[]⟩ (some ⟨"o"⟩) [⟨"a"⟩, ⟨"b"⟩]
        (pages [(["o"], .directory), (["o", "b"], .link "a/z")]) ∧
      ((Workshop.inOrder {} ⟨[]⟩ (some ⟨"o"⟩) [⟨"a"⟩, ⟨"b"⟩]
        (pages [(["o"], .directory), (["o", "b"], .link "a/z")]) [0, 1]).sorted 2)[1]? =
          some ⟨⟨"b"⟩, none, [], 1, some "Not a directory (os error 20)"⟩ ∧
      (Workshop.inOrder {} ⟨[]⟩ (some ⟨"o"⟩) [⟨"b"⟩]
        (pages [(["o"], .directory), (["o", "b"], .link "a/z")]) [0]).sorted 1 =
          [⟨⟨"b"⟩, none, [], 1, some "No such file or directory (os error 2)"⟩] := by
  have pieces : (Path.mk "o/a").pieces = ["o", "a"] ∧ (Path.mk "o/b").pieces = ["o", "b"] ∧
      (Path.mk "a/z").pieces = ["a", "z"] := ⟨rfl, rfl, rfl⟩
  have to_first : (pages [(["o"], .directory), (["o", "b"], .link "a/z")]).receiver ⟨"o/a"⟩ =
      .ok ["o", "a"] := by
    simp [pages, FileTree.receiver, FileTree.locate, pieces, FileTree.walk, FileTree.passage?,
      FileTree.node?, Path.isAbsolute, List.lookup, bind, Except.bind]
  have to_second : (pages [(["o"], .directory), (["o", "b"], .link "a/z")]).receiver ⟨"o/b"⟩ =
      .error .notFound := by
    simp [pages, FileTree.receiver, FileTree.locate, pieces, FileTree.walk, FileTree.node?,
      Path.isAbsolute, List.lookup, bind, Except.bind, FileTree.linkLimit]
  have behind : (pages [(["o"], .directory), (["o", "b"], .link "a/z"),
      (["o", "a"], .file "A")]).receiver ⟨"o/b"⟩ = .error .notDirectory := by
    simp [pages, FileTree.receiver, FileTree.locate, pieces, FileTree.walk, FileTree.node?,
      Path.isAbsolute, List.lookup, bind, Except.bind, FileTree.linkLimit]
  have target : Work.target ⟨"o"⟩ ⟨"a"⟩ = ⟨"o/a"⟩ ∧ Work.target ⟨"o"⟩ ⟨"b"⟩ = ⟨"o/b"⟩ := by
    decide +kernel
  have first := (@Work.ofTemplate_of_run {} _ ⟨[]⟩ (some ⟨"o"⟩) ⟨"a"⟩ _ _ rfl
    (@compileFile_pages none [(["o"], .directory), (["o", "b"], .link "a/z")] rfl).1
    run_page.1).2
  have alone := (@Work.ofTemplate_of_run {} _ ⟨[]⟩ (some ⟨"o"⟩) ⟨"b"⟩ _ _ rfl
    (@compileFile_pages none [(["o"], .directory), (["o", "b"], .link "a/z")] rfl).2
    run_page.2).2
  have second := (@Work.ofTemplate_of_run {} _ ⟨[]⟩ (some ⟨"o"⟩) ⟨"b"⟩ _ _ rfl
    (@compileFile_pages none [(["o"], .directory), (["o", "b"], .link "a/z"),
      (["o", "a"], .file "A")] rfl).2 run_page.2).2
  rw [Work.deliver_of_receiver (target.1 ▸ to_first)] at first
  rw [Work.deliver_of_error (target.2 ▸ to_second)] at alone
  rw [Work.deliver_of_error (target.2 ▸ behind)] at second
  refine ⟨unread_pages rfl rfl fun place written => ?_, ?_, ?_⟩
  · obtain h | h := written_pages written
    · rw [← Except.ok.inj (to_first.symm.trans h)]
      decide
    · rw [to_second] at h
      cases h
  · refine (@Workshop.getElem?_sorted_inOrder {} _ ⟨[]⟩ (some ⟨"o"⟩) [⟨"a"⟩, ⟨"b"⟩] [0, 1] [0] [] 1
      ⟨"b"⟩ (List.Perm.refl _) rfl (by simp) rfl).trans ?_
    have between : (Workshop.inOrder {} ⟨[]⟩ (some ⟨"o"⟩) [⟨"a"⟩, ⟨"b"⟩]
        (pages [(["o"], .directory), (["o", "b"], .link "a/z")]) [0]).tree =
          pages [(["o"], .directory), (["o", "b"], .link "a/z"), (["o", "a"], .file "A")] :=
      congrArg Work.tree first
    rw [between, second]
    rfl
  · rw [Workshop.sorted_single, alone]
    rfl

/-- A path that leads through the directory for dumps leads on once that is made. -/
theorem reports_of_detour :
    Unread { dumpDir := some ⟨"d"⟩ } ⟨[]⟩ none [⟨"a"⟩, ⟨"d/../b"⟩] (pages []) ∧
      ((Workshop.inOrder { dumpDir := some ⟨"d"⟩ } ⟨[]⟩ none [⟨"a"⟩, ⟨"d/../b"⟩] (pages [])
        [0, 1]).sorted 2)[1]? = some ⟨⟨"d/../b"⟩, none, [], 1, none⟩ ∧
      (Workshop.inOrder { dumpDir := some ⟨"d"⟩ } ⟨[]⟩ none [⟨"d/../b"⟩] (pages [])
        [0]).sorted 1 =
          [⟨⟨"d/../b"⟩, none, [], 0, some (Fault.missingDocument ⟨"d/../b"⟩).message⟩] := by
  have made : (pages []).makeAll ⟨"d"⟩ = (pages [(["d"], .directory)], none) := by
    have pieces : (Path.mk "d").pieces = ["d"] := rfl
    have created : (pages []).createDirectory ⟨"d"⟩ = .ok (pages [(["d"], .directory)]) := by
      simp [pages, FileTree.createDirectory, FileTree.endsInLink, FileTree.locate, pieces,
        FileTree.walk, FileTree.node?, Path.isAbsolute, List.lookup, bind, Except.bind,
        FileTree.put]
    change FileTree.createDirectories _ _ 2 = _
    simp [FileTree.createDirectories, created]
  have directory_made : prepared { dumpDir := some ⟨"d"⟩ } (pages []) =
      pages [(["d"], .directory)] := congrArg Prod.fst made
  have beside : (Path.mk "d/../b").directory.join "_macros.rhai" = ⟨"d/../_macros.rhai"⟩ := by
    decide +kernel
  have names : Generation.dumpPath ⟨"d"⟩ (Emitter.alone ⟨⟨"a"⟩, "A"⟩) = ⟨"d/a.rhai"⟩ ∧
      Generation.dumpPath ⟨"d"⟩ (Emitter.alone ⟨⟨"d/../b"⟩, "B"⟩) = ⟨"d/b.rhai"⟩ := by
    decide +kernel
  have pieces : (Path.mk "d/../b").pieces = ["d", "..", "b"] ∧
      (Path.mk "d/../_macros.rhai").pieces = ["d", "..", "_macros.rhai"] ∧
      (Path.mk "d/a.rhai").pieces = ["d", "a.rhai"] ∧
      (Path.mk "d/b.rhai").pieces = ["d", "b.rhai"] := ⟨rfl, rfl, rfl, rfl⟩
  have to_first : (pages [(["d"], .directory)]).receiver ⟨"d/a.rhai"⟩ = .ok ["d", "a.rhai"] := by
    simp [pages, FileTree.receiver, FileTree.locate, pieces, FileTree.walk, FileTree.passage?,
      FileTree.node?, Path.isAbsolute, List.lookup, bind, Except.bind]
  have to_second (dump : String) : (pages [(["d"], .directory),
      (["d", "a.rhai"], .file dump)]).receiver ⟨"d/b.rhai"⟩ = .ok ["d", "b.rhai"] := by
    simp [pages, FileTree.receiver, FileTree.locate, pieces, FileTree.walk, FileTree.passage?,
      FileTree.node?, Path.isAbsolute, List.lookup, bind, Except.bind]
  have page : ∀ line ∈ (Document.mk ⟨"d/../b"⟩ "B").lines,
      (Line.classify line.text).isInclude = false := by
    decide +kernel
  have first := @ofTemplate_of_dump { dumpDir := some ⟨"d"⟩ } _ _ ⟨[]⟩ none ⟨"a"⟩ _ _
    (@compileFile_pages (some ⟨"d"⟩) [] rfl).1
    (dump_of_receiver rfl made (names.1 ▸ to_first)) run_page.1
  have compiled (dump : String) : Generation.compileFile { dumpDir := some ⟨"d"⟩ }
      (pages [(["d"], .directory), (["d", "a.rhai"], .file dump)]) ⟨[]⟩ ⟨"d/../b"⟩ =
        .ok (Emitter.alone ⟨⟨"d/../b"⟩, "B"⟩) := by
    have missing : (pages [(["d"], .directory), (["d", "a.rhai"], .file dump)]).isFile
        ⟨"d/../_macros.rhai"⟩ = false := by
      simp [pages, FileTree.isFile, FileTree.at?, FileTree.realPlace, FileTree.locate, pieces,
        FileTree.walk, FileTree.node?, Path.isAbsolute, List.lookup]
    refine @Generation.compileFile_alone { dumpDir := some ⟨"d"⟩ } _ ⟨"d/../b"⟩ ["b"] "B" ?_ rfl
      (beside ▸ missing) (show Config.isScript {} ⟨"d/../b"⟩ = false by decide +kernel) page ⟨[]⟩
    simp [pages, FileTree.realPlace, FileTree.locate, pieces, FileTree.walk, FileTree.node?,
      Path.isAbsolute, List.lookup]
  have run : ((Emitter.alone ⟨⟨"d/../b"⟩, "B"⟩).run (Generation.options {}) ⟨[]⟩).1 =
      .ok ⟨"B", [], 1⟩ := by
    refine Expansion.ok_of_toOption ?_
    rw [Emitter.run, Emitter.program, Script.parse, Script.Parser.run, Emitter.tokens_source]
    decide +kernel
  have nowhere : (pages []).isFile ⟨"d/../b"⟩ = false := by
    simp [pages, FileTree.isFile, FileTree.at?, FileTree.realPlace, FileTree.locate, pieces,
      FileTree.walk, FileTree.node?, Path.isAbsolute, List.lookup]
  have failed : Generation.compileFile { dumpDir := some ⟨"d"⟩ } (pages []) ⟨[]⟩ ⟨"d/../b"⟩ =
      .error (.missingDocument ⟨"d/../b"⟩) := by
    simp [Generation.compileFile, Document.read, nowhere, bind, Except.bind]
  have second (dump : String) : (Work.ofTemplate { dumpDir := some ⟨"d"⟩ } ⟨[]⟩ none
      (pages [(["d"], .directory), (["d", "a.rhai"], .file dump)]) ⟨"d/../b"⟩).report =
        ⟨⟨"d/../b"⟩, none, [], 1, none⟩ := by
    have there : (pages [(["d"], .directory), (["d", "a.rhai"], .file dump)]).isDirectory ⟨"d"⟩ =
        true := by
      have pieces : (Path.mk "d").pieces = ["d"] := rfl
      simp [pages, FileTree.isDirectory, FileTree.at?, FileTree.realPlace, FileTree.locate, pieces,
        FileTree.walk, FileTree.node?, Path.isAbsolute, List.lookup]
    rw [@ofTemplate_of_dump { dumpDir := some ⟨"d"⟩ } _ _ ⟨[]⟩ none ⟨"d/../b"⟩ _ _ (compiled dump)
      (dump_of_receiver rfl (FileTree.makeAll_of_isDirectory there)
        (names.2 ▸ to_second dump)) run]
    rfl
  have places (place : Place)
      (written : Written { dumpDir := some ⟨"d"⟩ } none [⟨"a"⟩, ⟨"d/../b"⟩] (pages []) place) :
      place = ["d", "a.rhai"] ∨ place = ["d", "b.rhai"] := by
    have target_paths : targets { dumpDir := some ⟨"d"⟩ } none ⟨"a"⟩ = [⟨"d/a.rhai"⟩] ∧
        targets { dumpDir := some ⟨"d"⟩ } none ⟨"d/../b"⟩ = [⟨"d/b.rhai"⟩] := by
      decide +kernel
    have to_second : (pages [(["d"], .directory)]).receiver ⟨"d/b.rhai"⟩ =
        .ok ["d", "b.rhai"] := by
      simp [pages, FileTree.receiver, FileTree.locate, pieces, FileTree.walk, FileTree.passage?,
        FileTree.node?, Path.isAbsolute, List.lookup, bind, Except.bind]
    obtain ⟨template, known, path, target, received⟩ := written
    have known : template = ⟨"a"⟩ ∨ template = ⟨"d/../b"⟩ := by simpa using known
    rw [directory_made] at received
    obtain rfl | rfl := known
    · rw [target_paths.1, List.mem_singleton] at target
      exact .inl (Except.ok.inj (to_first.symm.trans (target ▸ received))).symm
    · rw [target_paths.2, List.mem_singleton] at target
      exact .inr (Except.ok.inj (to_second.symm.trans (target ▸ received))).symm
  refine ⟨?_, ?_, ?_⟩
  · intro template known path looks place received written
    rw [directory_made] at received
    have known : template = ⟨"a"⟩ ∨ template = ⟨"d/../b"⟩ := by simpa using known
    have looked : path = ⟨"a"⟩ ∨ path = ⟨"b"⟩ ∨ path = ⟨"./_macros.rhai"⟩ ∨ path = ⟨"d/../b"⟩ ∨
        path = ⟨"d/../_macros.rhai"⟩ := by
      obtain rfl | rfl := known
      · obtain h | h | h := looksUp_page (.inl rfl) looks <;> simp [h]
      · obtain h | h := looks.eq_or_eq fun document read => by
          simp [Document.read, nowhere] at read
        · simp [h]
        · rw [beside] at h
          simp [h]
    obtain ⟨to_a, to_b, to_prelude⟩ := @receiver_pages [(["d"], .directory)] rfl
    have to_detour : (pages [(["d"], .directory)]).receiver ⟨"d/../b"⟩ = .ok ["b"] ∧
        (pages [(["d"], .directory)]).receiver ⟨"d/../_macros.rhai"⟩ = .ok ["_macros.rhai"] := by
      simp [pages, FileTree.receiver, FileTree.locate, pieces, FileTree.walk, FileTree.passage?,
        FileTree.node?, Path.isAbsolute, List.lookup, bind, Except.bind]
    obtain rfl | rfl | rfl | rfl | rfl := looked <;> obtain rfl | rfl := places place written <;>
      simp_all
  · refine (@Workshop.getElem?_sorted_inOrder { dumpDir := some ⟨"d"⟩ } _ ⟨[]⟩ none
      [⟨"a"⟩, ⟨"d/../b"⟩] [0, 1] [0] [] 1 ⟨"d/../b"⟩ (List.Perm.refl _) rfl (by simp) rfl).trans ?_
    have between : (Workshop.inOrder { dumpDir := some ⟨"d"⟩ } ⟨[]⟩ none [⟨"a"⟩, ⟨"d/../b"⟩]
        (pages []) [0]).tree = pages [(["d"], .directory),
          (["d", "a.rhai"], .file (Emitter.alone ⟨⟨"a"⟩, "A"⟩).source)] :=
      congrArg Work.tree first
    rw [between, second]
  · rw [Workshop.sorted_single]
    simp [Work.ofTemplate, Generation.ofFile, failed]

/-- A directory for dumps that is made in part fails otherwise the second time. -/
theorem reports_of_half_made :
    Unread { dumpDir := some ⟨"n/../f/x"⟩ } ⟨[]⟩ none [⟨"a"⟩, ⟨"b"⟩]
        (pages [(["f"], .file "F")]) ∧
      ((Workshop.inOrder { dumpDir := some ⟨"n/../f/x"⟩ } ⟨[]⟩ none [⟨"a"⟩, ⟨"b"⟩]
        (pages [(["f"], .file "F")]) [0, 1]).sorted 2)[1]? =
          some ⟨⟨"b"⟩, none, [], 0, some (Fault.file .notDirectory).message⟩ ∧
      (Workshop.inOrder { dumpDir := some ⟨"n/../f/x"⟩ } ⟨[]⟩ none [⟨"b"⟩]
        (pages [(["f"], .file "F")]) [0]).sorted 1 =
          [⟨⟨"b"⟩, none, [], 0, some (Fault.file .exists).message⟩] := by
  have pieces : (Path.mk "n/../f/x").pieces = ["n", "..", "f", "x"] ∧
      (Path.mk "n/../f").pieces = ["n", "..", "f"] ∧ (Path.mk "n/..").pieces = ["n", ".."] ∧
      (Path.mk "n").pieces = ["n"] := ⟨rfl, rfl, rfl, rfl⟩
  have parents : (Path.mk "n/../f/x").parent? = some ⟨"n/../f"⟩ ∧
      (Path.mk "n/../f").parent? = some ⟨"n/.."⟩ ∧ (Path.mk "n/..").parent? = some ⟨"n"⟩ := by
    decide +kernel
  have made : (pages [(["f"], .file "F")]).makeAll ⟨"n/../f/x"⟩ =
      (pages [(["f"], .file "F"), (["n"], .directory)], some .exists) := by
    have before : (pages [(["f"], .file "F")]).createDirectory ⟨"n/../f/x"⟩ = .error .notFound ∧
        (pages [(["f"], .file "F")]).createDirectory ⟨"n/../f"⟩ = .error .notFound ∧
        (pages [(["f"], .file "F")]).createDirectory ⟨"n/.."⟩ = .error .notFound := by
      simp [pages, FileTree.createDirectory, FileTree.endsInLink, FileTree.locate, pieces,
        FileTree.walk, FileTree.node?, Path.isAbsolute, List.lookup, bind, Except.bind]
    have first : (pages [(["f"], .file "F")]).createDirectory ⟨"n"⟩ =
        .ok (pages [(["f"], .file "F"), (["n"], .directory)]) := by
      simp [pages, FileTree.createDirectory, FileTree.endsInLink, FileTree.locate, pieces,
        FileTree.walk, FileTree.node?, Path.isAbsolute, List.lookup, bind, Except.bind,
        FileTree.put]
    have behind : (pages [(["f"], .file "F"), (["n"], .directory)]).createDirectory ⟨"n/.."⟩ =
          .error .exists ∧
        (pages [(["f"], .file "F"), (["n"], .directory)]).isDirectory ⟨"n/.."⟩ = true ∧
        (pages [(["f"], .file "F"), (["n"], .directory)]).createDirectory ⟨"n/../f"⟩ =
          .error .exists ∧
        (pages [(["f"], .file "F"), (["n"], .directory)]).isDirectory ⟨"n/../f"⟩ = false := by
      simp [pages, FileTree.createDirectory, FileTree.endsInLink, FileTree.locate, pieces,
        FileTree.walk, FileTree.node?, Path.isAbsolute, List.lookup, bind, Except.bind,
        FileTree.isDirectory, FileTree.at?, FileTree.realPlace]
    change FileTree.createDirectories _ _ 9 = _
    simp [FileTree.createDirectories, before, first, behind, parents]
  have again : (pages [(["f"], .file "F"), (["n"], .directory)]).makeAll ⟨"n/../f/x"⟩ =
      (pages [(["f"], .file "F"), (["n"], .directory)], some .notDirectory) := by
    have behind : (pages [(["f"], .file "F"), (["n"], .directory)]).createDirectory ⟨"n/../f/x"⟩ =
          .error .notDirectory ∧
        (pages [(["f"], .file "F"), (["n"], .directory)]).isDirectory ⟨"n/../f/x"⟩ = false := by
      simp [pages, FileTree.createDirectory, FileTree.endsInLink, FileTree.locate, pieces,
        FileTree.walk, FileTree.node?, Path.isAbsolute, List.lookup, bind, Except.bind,
        FileTree.isDirectory, FileTree.at?, FileTree.realPlace]
    change FileTree.createDirectories _ _ 9 = _
    simp [FileTree.createDirectories, behind]
  have no_path (place : Place) : ¬Written { dumpDir := some ⟨"n/../f/x"⟩ } none [⟨"a"⟩, ⟨"b"⟩]
      (pages [(["f"], .file "F")]) place := by
    have target_paths : targets { dumpDir := some ⟨"n/../f/x"⟩ } none ⟨"a"⟩ =
          [⟨"n/../f/x/a.rhai"⟩] ∧
        targets { dumpDir := some ⟨"n/../f/x"⟩ } none ⟨"b"⟩ = [⟨"n/../f/x/b.rhai"⟩] := by
      decide +kernel
    have target_pieces : (Path.mk "n/../f/x/a.rhai").pieces = ["n", "..", "f", "x", "a.rhai"] ∧
        (Path.mk "n/../f/x/b.rhai").pieces = ["n", "..", "f", "x", "b.rhai"] := ⟨rfl, rfl⟩
    have nowhere :
        (pages [(["f"], .file "F"), (["n"], .directory)]).receiver ⟨"n/../f/x/a.rhai"⟩ =
          .error .notDirectory ∧
        (pages [(["f"], .file "F"), (["n"], .directory)]).receiver ⟨"n/../f/x/b.rhai"⟩ =
          .error .notDirectory := by
      simp [pages, FileTree.receiver, FileTree.locate, target_pieces, FileTree.walk,
        FileTree.node?, Path.isAbsolute, List.lookup, bind, Except.bind]
    rintro ⟨template, known, path, target, received⟩
    have known : template = ⟨"a"⟩ ∨ template = ⟨"b"⟩ := by simpa using known
    rw [show prepared { dumpDir := some ⟨"n/../f/x"⟩ } (pages [(["f"], .file "F")]) =
      pages [(["f"], .file "F"), (["n"], .directory)] from congrArg Prod.fst made] at received
    obtain rfl | rfl := known
    · rw [target_paths.1, List.mem_singleton] at target
      rw [target, nowhere.1] at received
      cases received
    · rw [target_paths.2, List.mem_singleton] at target
      rw [target, nowhere.2] at received
      cases received
  have first := @ofTemplate_of_trouble { dumpDir := some ⟨"n/../f/x"⟩ } _ _ ⟨[]⟩ none ⟨"a"⟩ _ _
    (@compileFile_pages (some ⟨"n/../f/x"⟩) [(["f"], .file "F")] rfl).1
    (dump_of_trouble rfl made _)
  have alone := @ofTemplate_of_trouble { dumpDir := some ⟨"n/../f/x"⟩ } _ _ ⟨[]⟩ none ⟨"b"⟩ _ _
    (@compileFile_pages (some ⟨"n/../f/x"⟩) [(["f"], .file "F")] rfl).2
    (dump_of_trouble rfl made _)
  have second := @ofTemplate_of_trouble { dumpDir := some ⟨"n/../f/x"⟩ } _ _ ⟨[]⟩ none ⟨"b"⟩ _ _
    (@compileFile_pages (some ⟨"n/../f/x"⟩) [(["f"], .file "F"), (["n"], .directory)] rfl).2
    (dump_of_trouble rfl again _)
  refine ⟨unread_pages (congrArg Prod.fst made) rfl fun place written =>
    (no_path place written).elim, ?_, ?_⟩
  · refine (@Workshop.getElem?_sorted_inOrder { dumpDir := some ⟨"n/../f/x"⟩ } _ ⟨[]⟩ none
      [⟨"a"⟩, ⟨"b"⟩] [0, 1] [0] [] 1 ⟨"b"⟩ (List.Perm.refl _) rfl (by simp) rfl).trans ?_
    have between : (Workshop.inOrder { dumpDir := some ⟨"n/../f/x"⟩ } ⟨[]⟩ none [⟨"a"⟩, ⟨"b"⟩]
        (pages [(["f"], .file "F")]) [0]).tree =
          pages [(["f"], .file "F"), (["n"], .directory)] :=
      congrArg Work.tree first
    rw [between, second]
  · rw [Workshop.sorted_single, alone]

/-- A run whose report cannot be written fails without an entry that has an error. -/
theorem exit_of_unwritable_report :
    Unread {} ⟨[]⟩ none [⟨"a"⟩] (pages []) ∧
      (Workshop.inOrder {} ⟨[]⟩ none [⟨"a"⟩] (pages []) [0]).sorted 1 =
        [⟨⟨"a"⟩, none, [], 1, none⟩] ∧
      (conclude ⟨[⟨"a"⟩], ⟨"s"⟩, none, false, false, none, none, some ⟨"."⟩⟩
        (Workshop.inOrder {} ⟨[]⟩ none [⟨"a"⟩] (pages []) [0])).exit = 1 := by
  have work := (@Work.ofTemplate_of_run {} _ ⟨[]⟩ none ⟨"a"⟩ _ _ rfl
    (@compileFile_pages none [] rfl).1 run_page.1).2
  refine ⟨?_, ?_, ?_⟩
  · rintro template - path - place - ⟨other, -, path', target, -⟩
    simp [targets] at target
  · rw [Workshop.sorted_single, work]
    rfl
  · have refused : (Workshop.inOrder {} ⟨[]⟩ none [⟨"a"⟩] (pages []) [0]).tree.receiver ⟨"."⟩ =
        .error .isDirectory := by
      change (Work.ofTemplate {} ⟨[]⟩ none (pages []) ⟨"a"⟩).tree.receiver ⟨"."⟩ = _
      rw [work]
      change (pages []).receiver ⟨"."⟩ = _
      cbv
    simp only [conclude, FileTree.write_of_error refused, failure]

end Outcome

end Command

end Stencil
