import Stencil.Proofs.Lines

/-!
# The structure of emitters

Between the opening lines and the ending, an emitter follows the expanded lines of its document:
they are a row of stretches, each of content lines and the directive behind them, and each stretch
has one block and one line of code.  No line of an emitter holds a newline, so that the lines of its
source are counted as its origins are.
-/

namespace Stencil

/-! ## Expansion -/

namespace Inclusion

/-- What is spliced in are the lines of the document that the directive names. -/
theorem target_of_resolve_spliced {tree : FileTree} {spec : Spec} {included : List Path}
    {expr : String} {line : SourceLine} {file : Path} {lines : List SourceLine}
    (h : resolve tree spec included expr line = .ok (.spliced file lines)) :
    ∃ relative document, target spec expr = .ok relative ∧
      tree.canonical (line.origin.directory.join relative) = file ∧
      Document.read tree (line.origin.directory.join relative) = .ok document ∧
      lines = document.splice line.terminated := by
  unfold resolve at h
  split at h
  · simp at h
  · rename_i relative named
    dsimp only at h
    split at h
    · split at h
      · simp at h
      · split at h
        · simp at h
        · rename_i document read
          simp only [Except.ok.injEq, Inclusion.spliced.injEq] at h
          exact ⟨relative, document, named, h.1, read, h.2.symm⟩
    · simp at h

/-- What is spliced in are the lines of a document of the tree. -/
theorem read_of_resolve_spliced {tree : FileTree} {spec : Spec} {included : List Path}
    {expr : String} {line : SourceLine} {file : Path} {lines : List SourceLine}
    (h : resolve tree spec included expr line = .ok (.spliced file lines)) :
    ∃ path document, tree.canonical path = file ∧ Document.read tree path = .ok document ∧
      lines = document.splice line.terminated := by
  obtain ⟨_, document, -, real, read, eq⟩ := target_of_resolve_spliced h
  exact ⟨_, document, real, read, eq⟩

end Inclusion

namespace Line

def isInclude : Line → Bool
  | .include _ => true
  | _ => false

theorem isContent_iff {kind : Line} (h : kind.isInclude = false) :
    kind.isContent = true ↔ kind.code? = none := by
  cases kind <;> simp_all [isContent, code?, isInclude]

theorem isInclude_eq_false_of_isContent {kind : Line} (h : kind.isContent = true) :
    kind.isInclude = false := by
  cases kind <;> simp_all [isContent, isInclude]

theorem isInclude_eq_false_of_code? {kind : Line} {code : String} (h : kind.code? = some code) :
    kind.isInclude = false := by
  cases kind <;> simp_all [code?, isInclude]

theorem code?_of_isContent {kind : Line} (h : kind.isContent = true) : kind.code? = none :=
  (isContent_iff (isInclude_eq_false_of_isContent h)).1 h

end Line

namespace Expansion

variable {tree : FileTree} {spec : Spec} {included : List Path} {lines : List SourceLine}
  {e : Expansion}

theorem map_ok {β : Type} {x : Except Fault Expansion} {f : Expansion → β} {b : β}
    (h : x.map f = .ok b) : ∃ e, x = .ok e ∧ f e = b := by
  cases x with
  | error fault => simp [Except.map] at h
  | ok e => exact ⟨e, rfl, by simpa [Except.map] using h⟩

theorem ok_of_toOption {ε α : Type} {x : Except ε α} {a : α} (h : x.toOption = some a) :
    x = .ok a := by
  cases x <;> simp_all [Except.toOption]

theorem ofLines_failed {line : SourceLine} {rest : List SourceLine} {expr : String} {fault : Fault}
    (kind : Line.classify line.text = .include expr)
    (failed : Inclusion.resolve tree spec included expr line = .error fault) :
    ofLines tree spec included (line :: rest) = .error fault := by
  rw [ofLines]
  simp only [kind]
  split <;> simp_all

theorem ofLines_refused {line : SourceLine} {rest : List SourceLine} {expr : String} {file : Path}
    (kind : Line.classify line.text = .include expr)
    (refused : Inclusion.resolve tree spec included expr line = .ok (.refused file)) :
    ofLines tree spec included (line :: rest) =
      (ofLines tree spec included rest).map fun e => { e with refused := file :: e.refused } := by
  rw [ofLines]
  simp only [kind]
  split <;> simp_all

theorem ofLines_spliced {line : SourceLine} {rest : List SourceLine} {expr : String} {file : Path}
    (kind : Line.classify line.text = .include expr)
    (spliced : Inclusion.resolve tree spec included expr line = .ok (.spliced file lines)) :
    ofLines tree spec included (line :: rest) =
      (ofLines tree spec (included ++ [file]) (lines ++ rest)).map fun e =>
        { e with included := file :: e.included } := by
  rw [ofLines]
  simp only [kind]
  split <;> simp_all

theorem ofLines_kept {line : SourceLine} {rest : List SourceLine}
    (kept : (Line.classify line.text).isInclude = false) :
    ofLines tree spec included (line :: rest) =
      (ofLines tree spec included rest).map fun e =>
        { e with lines := (line, Line.classify line.text) :: e.lines } := by
  rw [ofLines]
  split
  · simp_all [Line.isInclude]
  · rfl

theorem ofLines_of_kept
    (kept : ∀ line ∈ lines, (Line.classify line.text).isInclude = false) :
    ofLines tree spec included lines =
      .ok ⟨lines.map fun line => (line, Line.classify line.text), [], []⟩ := by
  induction lines with
  | nil => rw [ofLines, List.map_nil]
  | cons line rest ih =>
    rw [ofLines_kept (kept line (by simp)), ih fun other ho => kept other (by simp [ho])]
    rfl

/--
A property that goes over from a directive to the lines that take its place holds for the expanded
lines; each of them is of the kind that its text has, and none is an include.
-/
theorem forall_of_ofLines_of_spliced {P : SourceLine → Prop}
    (spliced : ∀ included line expr file lines, P line → Line.classify line.text = .include expr →
      Inclusion.resolve tree spec included expr line = .ok (.spliced file lines) →
      ∀ other ∈ lines, P other)
    (given : ∀ line ∈ lines, P line) (h : ofLines tree spec included lines = .ok e) :
    ∀ entry ∈ e.lines, P entry.1 ∧ entry.2 = Line.classify entry.1.text ∧
      entry.2.isInclude = false := by
  induction included, lines using ofLines.induct tree spec generalizing e with
  | case1 included =>
    rw [ofLines, Except.ok.injEq] at h
    subst h
    simp
  | case2 included line rest expr kind fault failed =>
    rw [ofLines_failed kind failed] at h
    simp at h
  | case3 included line rest expr kind file refused ih =>
    rw [ofLines_refused kind refused] at h
    obtain ⟨e', he, rfl⟩ := map_ok h
    have rest_spec := ih (fun other ho => given other (by simp [ho])) he
    exact rest_spec
  | case4 included line rest expr kind file lines resolved ih =>
    rw [ofLines_spliced kind resolved] at h
    obtain ⟨e', he, rfl⟩ := map_ok h
    have given' : ∀ other ∈ lines ++ rest, P other := by
      intro other ho
      rcases List.mem_append.1 ho with ho | ho
      · exact spliced included line expr file lines (given line List.mem_cons_self) kind resolved
          other ho
      · exact given other (by simp [ho])
    have rest_spec := ih given' he
    exact rest_spec
  | case5 included line rest kind ih =>
    have kept : (Line.classify line.text).isInclude = false := by
      cases hk : Line.classify line.text <;> simp_all [Line.isInclude]
    rw [ofLines_kept kept] at h
    obtain ⟨e', he, rfl⟩ := map_ok h
    intro entry hentry
    rcases List.mem_cons.1 hentry with rfl | hentry
    · exact ⟨given line (by simp), rfl, kept⟩
    · exact ih (fun other ho => given other (by simp [ho])) he entry hentry

/-- A property of the lines of every document holds for the expanded lines. -/
theorem forall_of_ofLines {P : SourceLine → Prop}
    (every : ∀ document terminated, ∀ line ∈ Document.splice document terminated, P line)
    (given : ∀ line ∈ lines, P line) (h : ofLines tree spec included lines = .ok e) :
    ∀ entry ∈ e.lines, P entry.1 ∧ entry.2 = Line.classify entry.1.text ∧
      entry.2.isInclude = false := by
  refine forall_of_ofLines_of_spliced (fun included line expr file lines _ _ resolved => ?_) given h
  obtain ⟨_, document, -, -, rfl⟩ := Inclusion.read_of_resolve_spliced resolved
  exact every document line.terminated

theorem getLast?_of_ofLines {last : SourceLine}
    (kept : (Line.classify last.text).isInclude = false) (hl : lines.getLast? = some last)
    (h : ofLines tree spec included lines = .ok e) :
    e.lines.getLast? = some (last, Line.classify last.text) := by
  have behind {line : SourceLine} {rest : List SourceLine} {expr : String}
      (kind : Line.classify line.text = .include expr)
      (hl : (line :: rest).getLast? = some last) : rest.getLast? = some last := by
    cases rest with
    | nil =>
      simp only [List.getLast?_singleton, Option.some.injEq] at hl
      subst hl
      simp [kind, Line.isInclude] at kept
    | cons next more => rwa [List.getLast?_cons_cons] at hl
  induction included, lines using ofLines.induct tree spec generalizing e with
  | case1 included => simp at hl
  | case2 included line rest expr kind fault failed =>
    rw [ofLines_failed kind failed] at h
    simp at h
  | case3 included line rest expr kind file refused ih =>
    rw [ofLines_refused kind refused] at h
    obtain ⟨e', he, rfl⟩ := map_ok h
    have rest_last := ih (behind kind hl) he
    exact rest_last
  | case4 included line rest expr kind file lines spliced ih =>
    rw [ofLines_spliced kind spliced] at h
    obtain ⟨e', he, rfl⟩ := map_ok h
    have rest_last := ih (by rw [List.getLast?_append, behind kind hl, Option.some_or]) he
    exact rest_last
  | case5 included line rest kind ih =>
    have kept' : (Line.classify line.text).isInclude = false := by
      cases hk : Line.classify line.text <;> simp_all [Line.isInclude]
    rw [ofLines_kept kept'] at h
    obtain ⟨e', he, rfl⟩ := map_ok h
    cases rest with
    | nil =>
      simp only [List.getLast?_singleton, Option.some.injEq] at hl
      subst hl
      rw [ofLines, Except.ok.injEq] at he
      subst he
      rfl
    | cons next more =>
      rw [List.getLast?_cons_cons] at hl
      rw [List.getLast?_cons, ih hl he, Option.getD_some]

end Expansion

/-- What of a line comes into the code of an emitter. -/
def SourceLine.content (line : SourceLine) : String × Bool := (line.text, line.terminated)

/-! ## Stretches -/

structure Stretch where
  content : List SourceLine
  directive : SourceLine
  code : String
  isContent : ∀ line ∈ content, (Line.classify line.text).isContent = true
  isDirective : (Line.classify directive.text).code? = some code

namespace Stretch

def source (s : Stretch) : List SourceLine := s.content ++ [s.directive]

/-- One block for the content that adds something, and one line for the directive. -/
def emitted (s : Stretch) : List EmitterLine :=
  Emitter.block (s.content.filter (!Emitter.isVoid ·)) ++ [⟨s.code, some s.directive⟩]

end Stretch

namespace Emitter

theorem text_of_isVoid {line : SourceLine} (h : isVoid line = true) : line.text = "" := by
  simp only [isVoid, Bool.and_eq_true, String.isEmpty_iff] at h
  exact h.1

theorem code?_of_isVoid {line : SourceLine} (h : isVoid line = true) :
    (Line.classify line.text).code? = none := by
  rw [text_of_isVoid h]
  decide

/--
The lines of an emitter follow the stretches of its document; `gathered` is the content that was read
since the last directive.
-/
theorem body_eq_emitted {front : List (SourceLine × Line)} {last : SourceLine} {code : String}
    (gathered : List SourceLine)
    (hg : ∀ line ∈ gathered, (Line.classify line.text).isContent = true)
    (hf : ∀ entry ∈ front, entry.2 = Line.classify entry.1.text ∧ entry.2.isInclude = false)
    (hl : (Line.classify last.text).code? = some code) :
    ∃ stretches : List Stretch,
      gathered ++ front.map (·.1) ++ [last] = stretches.flatMap Stretch.source ∧
      body (gathered.filter (!isVoid ·)) (front ++ [(last, Line.classify last.text)]) =
        stretches.flatMap Stretch.emitted := by
  induction front generalizing gathered with
  | nil =>
    refine ⟨[⟨gathered, last, code, hg, hl⟩], by simp [Stretch.source], ?_⟩
    simp [body, hl, Stretch.emitted, block]
  | cons entry rest ih =>
    obtain ⟨line, kind⟩ := entry
    obtain ⟨hk, hi⟩ := hf (line, kind) (by simp)
    simp only at hk hi
    have hrest : ∀ entry ∈ rest,
        entry.2 = Line.classify entry.1.text ∧ entry.2.isInclude = false :=
      fun entry he => hf entry (by simp [he])
    rw [List.cons_append, body]
    cases hc : kind.code? with
    | none =>
      have content : (Line.classify line.text).isContent = true := by
        rw [← hk, Line.isContent_iff hi, hc]
      have all_content : ∀ other ∈ gathered ++ [line],
          (Line.classify other.text).isContent = true :=
        List.forall_mem_append.2 ⟨hg, List.forall_mem_singleton.2 content⟩
      obtain ⟨stretches, source, emitted⟩ := ih (gathered ++ [line]) all_content hrest
      refine ⟨stretches, by simpa using source, ?_⟩
      rw [← emitted, List.filter_append]
      by_cases hv : isVoid line <;> simp [hv]
    | some code' =>
      obtain ⟨stretches, source, emitted⟩ := ih [] (by simp) hrest
      refine ⟨⟨gathered, line, code', hg, hk ▸ hc⟩ :: stretches, ?_, ?_⟩
      · simp [Stretch.source, ← source]
      · rw [List.flatMap_cons, ← emitted]
        simp [Stretch.emitted]

theorem oneLine_of_mem_block {run : List SourceLine} {line : EmitterLine}
    (hr : ∀ line ∈ run, OneLine line.text) (h : line ∈ block run) : OneLine line.code := by
  have encoding {deferred : Bool} {line : EmitterLine} (h : line ∈ encoded deferred run) :
      OneLine line.code := by
    obtain ⟨source, hs, rfl⟩ := List.mem_map.1 h
    exact Encoding.oneLine_script (hr source hs)
  unfold block at h
  split at h
  · simp at h
  · simp only [List.mem_append, List.mem_cons, List.not_mem_nil, or_false] at h
    rcases h with ((rfl | h) | rfl | h) | rfl
    · decide
    · exact encoding h
    · decide
    · exact encoding h
    · decide

theorem oneLine_of_mem_emitted {s : Stretch} {line : EmitterLine}
    (hs : ∀ line ∈ s.source, OneLine line.text) (h : line ∈ s.emitted) : OneLine line.code := by
  rcases List.mem_append.1 h with h | h
  · refine oneLine_of_mem_block (fun other ho => ?_) h
    exact hs other (by simp [Stretch.source, (List.mem_filter.1 ho).1])
  · rw [List.mem_singleton] at h
    subst h
    exact Line.oneLine_code s.isDirective

theorem oneLine_of_mem_opening {document : Document} {prelude : Option Prelude} {embed : Bool}
    {line : EmitterLine} (hp : OneLine document.path.text)
    (h : line ∈ opening document prelude embed) : OneLine line.code := by
  unfold opening at h
  simp only [List.mem_append, List.mem_cons, List.not_mem_nil, or_false] at h
  rcases h with ((rfl | rfl) | h) | h
  · exact OneLine.append (by decide) hp
  · decide
  · cases embed with
    | false => simp at h
    | true =>
      simp only [if_true, List.mem_singleton] at h
      subst h
      decide
  · cases prelude with
    | none => simp at h
    | some p =>
      obtain ⟨source, hs, rfl⟩ := List.mem_map.1 h
      exact Document.oneLine_of_mem_lines hs

theorem oneLine_of_mem_ending {embed : Bool} {line : EmitterLine} (h : line ∈ ending embed) :
    OneLine line.code := by
  revert line
  cases embed <;> simp only [ending, plain] <;> decide

theorem map_pieces_source {lines : List EmitterLine} (some_line : lines ≠ [])
    (h : ∀ line ∈ lines, OneLine line.code) (path : Path) (includes refused : List Path) :
    (Document.pieces (source ⟨path, lines, includes, refused⟩).toList).map String.ofList =
      lines.map (·.code) := by
  refine Document.pieces_intercalate (by simpa using some_line) fun code hc => ?_
  obtain ⟨line, hl, rfl⟩ := List.mem_map.1 hc
  exact h line hl

/-- The tokens of an emitter, whose lines are put together as characters: easier to compute. -/
theorem tokens_source (emitter : Emitter) :
    Script.tokens emitter.source = Script.Lexer.scan ⟨Script.Pos.start, false, [], false⟩
      (['\n'].intercalate (emitter.lines.map (·.code.toList))) := by
  rw [Script.tokens, source, String.toList_intercalate, List.map_map]
  rfl

theorem compile_eq_map (tree : FileTree) (spec : Spec) (prelude : Option Prelude) (embed : Bool)
    (document : Document) :
    compile tree spec prelude embed document =
      (Expansion.ofLines tree spec [tree.canonical document.path]
        (document.lines ++ [closing document])).map fun e => {
          document := document.path
          lines := opening document prelude embed ++ body [] e.lines ++ ending embed
          includes := e.included
          refused := e.refused } := by
  simp only [compile, bind, Except.bind]
  cases Expansion.ofLines tree spec [tree.canonical document.path]
    (document.lines ++ [closing document]) <;> rfl

theorem compile_eq_ok {tree : FileTree} {spec : Spec} {prelude : Option Prelude} {embed : Bool}
    {document : Document} {emitter : Emitter}
    (h : compile tree spec prelude embed document = .ok emitter) :
    ∃ e, Expansion.ofLines tree spec [tree.canonical document.path]
        (document.lines ++ [closing document]) = .ok e ∧
      emitter = {
        document := document.path
        lines := opening document prelude embed ++ body [] e.lines ++ ending embed
        includes := e.included
        refused := e.refused } := by
  rw [compile_eq_map] at h
  obtain ⟨e, expanded, rfl⟩ := Expansion.map_ok h
  exact ⟨e, expanded, rfl⟩

theorem classify_closing (document : Document) :
    Line.classify (closing document).text = .directive "" := by
  change Line.classify "//! " = .directive ""
  decide

theorem compile_of_kept {tree : FileTree} {spec : Spec} {prelude : Option Prelude} {embed : Bool}
    {document : Document}
    (kept : ∀ line ∈ document.lines, (Line.classify line.text).isInclude = false) :
    compile tree spec prelude embed document = .ok {
      document := document.path
      lines := opening document prelude embed ++
        body [] ((document.lines ++ [closing document]).map
          fun line => (line, Line.classify line.text)) ++ ending embed
      includes := []
      refused := [] } := by
  have kept' : ∀ line ∈ document.lines ++ [closing document],
      (Line.classify line.text).isInclude = false := by
    rw [List.forall_mem_append, List.forall_mem_singleton, classify_closing]
    exact ⟨kept, rfl⟩
  simp only [compile, Expansion.ofLines_of_kept kept']
  rfl

def shared (prelude : Option Prelude) : List SourceLine :=
  match prelude with
  | some p => p.document.lines
  | none => []

/--
An emitter has its fixed opening lines, the lines of the prelude, one block and one line of code for
each stretch of the expanded document, whose last directive is the closing one, and its ending.  The
lines of its source are these, and each knows the line of a document it stands for.
-/
theorem compile_layout {tree : FileTree} {spec : Spec} {prelude : Option Prelude} {embed : Bool}
    {document : Document} {emitter : Emitter} (path : OneLine document.path.text)
    (compiled : compile tree spec prelude embed document = .ok emitter) :
    ∃ (e : Expansion) (stretches : List Stretch),
      Expansion.ofLines tree spec [tree.canonical document.path]
        (document.lines ++ [closing document]) = .ok e ∧
      e.lines = (stretches.flatMap Stretch.source).map
        (fun line => (line, Line.classify line.text)) ∧
      (stretches.flatMap Stretch.source).getLast? = some (closing document) ∧
      emitter.lines =
        [plain ("// emitter program for " ++ document.path.text), plain "let code = \"\";"] ++
        (if embed then [plain "code += _spec_header();"] else []) ++
        (shared prelude).map (fun line => ⟨line.text, some line⟩) ++
        stretches.flatMap Stretch.emitted ++ ending embed ∧
      (Document.pieces emitter.source.toList).map String.ofList = emitter.lines.map (·.code) ∧
      (Document.pieces emitter.source.toList).length = emitter.lines.length ∧
      ∀ i, emitter.origin? (i + 1) = emitter.lines[i]?.bind (·.origin) := by
  obtain ⟨e, expanded, rfl⟩ := compile_eq_ok compiled
  have closed := classify_closing document
  have last := Expansion.getLast?_of_ofLines (by rw [closed]; rfl) (by simp) expanded
  have given : ∀ line ∈ document.lines ++ [closing document], OneLine line.text := by
    rw [List.forall_mem_append, List.forall_mem_singleton]
    constructor
    · intro line hl
      exact Document.oneLine_of_mem_lines hl
    · change OneLine "//! "
      decide
  have entries := Expansion.forall_of_ofLines
    (fun _ _ _ hl => Document.oneLine_of_mem_splice hl) given expanded
  -- The closing directive comes last, so that the scan ends with no content gathered.
  obtain ⟨front, split⟩ := List.getLast?_eq_some_iff.1 last
  have kinds : ∀ entry ∈ front,
      entry.2 = Line.classify entry.1.text ∧ entry.2.isInclude = false := by
    intro entry he
    exact (entries entry (by simp [split, he])).2
  obtain ⟨stretches, source, emitted⟩ := body_eq_emitted [] (by simp) kinds
    (show (Line.classify (closing document).text).code? = some "" by rw [closed]; rfl)
  have stream : e.lines.map (·.1) = stretches.flatMap Stretch.source := by
    rw [← source, split]
    simp
  have middle : body [] e.lines = stretches.flatMap Stretch.emitted := by
    rw [← emitted, split, List.filter_nil]
  rw [middle]
  have oneLine : ∀ line ∈ opening document prelude embed ++ stretches.flatMap Stretch.emitted ++
      ending embed, OneLine line.code := by
    intro line hl
    rw [List.mem_append, List.mem_append] at hl
    rcases hl with (hl | hl) | hl
    · exact oneLine_of_mem_opening path hl
    · obtain ⟨s, hs, hl⟩ := List.mem_flatMap.1 hl
      refine oneLine_of_mem_emitted (fun other ho => ?_) hl
      have : other ∈ e.lines.map (·.1) := stream ▸ List.mem_flatMap.2 ⟨s, hs, ho⟩
      obtain ⟨entry, he, rfl⟩ := List.mem_map.1 this
      exact (entries entry he).1
    · exact oneLine_of_mem_ending hl
  have pieces := map_pieces_source (by simp [opening]) oneLine
  refine ⟨e, stretches, expanded, ?_, ?_, ?_, pieces _ _ _, ?_, fun i => rfl⟩
  · rw [← stream, List.map_map]
    refine (List.map_id _).symm.trans (List.map_congr_left fun entry he => ?_)
    exact Prod.ext rfl (entries entry he).2.1
  · rw [← source]
    simp
  · cases prelude <;> simp [opening, shared]
  · simpa using congrArg List.length (pieces document.path e.included e.refused)

theorem compile_layout_of_page :
    OneLine "page" ∧ ∃ emitter,
      compile ⟨[], []⟩ ⟨[]⟩ (some ⟨⟨⟨"shared"⟩, "fn f() \x7b 1 \x7d"⟩⟩) true
        ⟨⟨"page"⟩, "a\n//! let x = f();\nb"⟩ = .ok emitter ∧
      (Document.pieces emitter.source.toList).length = emitter.lines.length := by
  refine ⟨by decide, _, compile_of_kept (by decide), ?_⟩
  obtain ⟨e, stretches, -, -, -, -, -, length, -⟩ :=
    compile_layout (by decide) (compile_of_kept (by decide) :
      compile ⟨[], []⟩ ⟨[]⟩ (some ⟨⟨⟨"shared"⟩, "fn f() \x7b 1 \x7d"⟩⟩) true
        ⟨⟨"page"⟩, "a\n//! let x = f();\nb"⟩ = _)
  exact length

end Emitter

end Stencil
