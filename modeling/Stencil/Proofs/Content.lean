import Stencil.Proofs.Program

/-!
# Documents without directives

A document of content lines alone means its text: literal text stands for itself, and a substitution
for the value of its field.  The fields that are missed are found in the first run, all at once; then
they are empty objects, which are rendered as nothing.
-/

namespace Stencil

open Script
open Script.Lexer (Lexes LexesLines)

namespace Document

def rendered (deferred : Bool) (spec : Spec) (document : Document) : String :=
  String.join (document.lines.map fun line =>
    Encoding.rendered deferred (Names.shown spec.get?) line.text line.terminated)

/-- The names that a document without directives evaluates and that are no fields, each once. -/
def undefined (deferred : Bool) (spec : Spec) (document : Document) : List String :=
  ((document.lines.flatMap fun line => Encoding.evaluated deferred line.text).filter
    fun name => !spec.has name).eraseDups

end Document

namespace Emitter

/-! ## The run of a document -/

theorem rows_filter_isVoid (deferred : Bool) (lines : List SourceLine) :
    Encoding.rows deferred ((lines.filter (!isVoid ·)).map (·.content)) =
      Encoding.rows deferred (lines.map (·.content)) := by
  have void : Encoding.statements deferred "" false = [] := by
    simp [Encoding.statements, segments, Segment.scan, Segment.ofPending, Encoding.appends,
      Encoding.ending]
  induction lines with
  | nil => rfl
  | cons line rest ih =>
    simp only [Encoding.rows, SourceLine.content] at ih ⊢
    by_cases h : isVoid line = true
    · obtain ⟨text, terminated⟩ : line.text = "" ∧ line.terminated = false := by
        simpa [isVoid] using h
      simp [h, text, terminated, void, ih]
    · simp [h, ih]

theorem outline_filter_isVoid (deferred : Bool) (lines : List SourceLine) :
    Encoding.outline deferred ((lines.filter (!isVoid ·)).map (·.content)) =
      Encoding.outline deferred (lines.map (·.content)) :=
  congrArg (fun as => as.foldr Append.onto .done) (rows_filter_isVoid deferred lines)

theorem body_content {lines : List SourceLine} {last : SourceLine} {code : String}
    (gathered : List SourceLine) (more : List (SourceLine × Line))
    (content : ∀ line ∈ lines, (Line.classify line.text).code? = none)
    (hl : (Line.classify last.text).code? = some code) :
    body gathered (lines.map (fun line => (line, Line.classify line.text)) ++
        (last, Line.classify last.text) :: more) =
      block (gathered ++ lines.filter (!isVoid ·)) ++ ⟨code, some last⟩ :: body [] more := by
  induction lines generalizing gathered with
  | nil => simp [body, hl]
  | cons line rest ih =>
    have later := fun gathered => ih gathered fun other ho =>
      content other (List.mem_cons_of_mem line ho)
    rw [List.map_cons, List.cons_append, body, content line List.mem_cons_self]
    by_cases h : isVoid line = true
    · simp [h, later]
    · simp [h, later]

def contentOutline (document : Document) : Outline :=
  blockOnto ((document.lines.filter (!isVoid ·)).map (·.content)) .done

section

variable {document : Document}

/-- The lines of the emitter are the block of all lines, and a directive without code. -/
theorem codes_content
    (content : ∀ line ∈ document.lines, (Line.classify line.text).isContent = true) :
    (body [] ((document.lines ++ [closing document]).map
        fun line => (line, Line.classify line.text))).map (·.code) =
      (block (document.lines.filter (!isVoid ·))).map (·.code) ++ [""] := by
  have no_code : ∀ line ∈ document.lines, (Line.classify line.text).code? = none := by
    intro line hl
    exact Line.code?_of_isContent (content line hl)
  have closed : (Line.classify (closing document).text).code? = some "" := by
    rw [classify_closing]
    rfl
  rw [List.map_append, List.map_singleton, body_content [] [] no_code closed, List.nil_append]
  simp [body, block]

theorem lexesLines_content
    (content : ∀ line ∈ document.lines, (Line.classify line.text).isContent = true)
    (bare : ∀ line ∈ document.lines, Encoding.IsBare line.text) :
    LexesLines ((body [] ((document.lines ++ [closing document]).map
      fun line => (line, Line.classify line.text))).map (·.code))
      (contentOutline document).tokens := by
  have bare' : ∀ line ∈ document.lines.filter (!isVoid ·), Encoding.IsBare line.text := by
    intro line hl
    exact bare line (List.mem_filter.1 hl).1
  have last : LexesLines [""] [] := LexesLines.line fun _ => Lexes.nil
  have lines := (lexesLines_block bare').append last
  rw [codes_content content]
  simpa [contentOutline] using lines

/-! ## What it means -/

variable {deferred : Bool} {names : Names}

theorem text_contentOutline (mode : names Resolver.modeName = some (.bool deferred)) :
    (contentOutline document).text names = String.join (document.lines.map fun line =>
      Encoding.rendered deferred (Append.value names) line.text line.terminated) := by
  rw [contentOutline, text_blockOnto mode, Outline.text, String.append_empty,
    outline_filter_isVoid, Encoding.text_outline, List.map_map]
  rfl

theorem missing_contentOutline (mode : names Resolver.modeName = some (.bool deferred)) :
    (contentOutline document).missing names =
      (document.lines.flatMap fun line => Encoding.evaluated deferred line.text).filter
        fun name => (names name).isNone := by
  rw [contentOutline, missing_blockOnto mode, Outline.missing, List.append_nil,
    outline_filter_isVoid, Encoding.missing_outline, List.flatMap_map]
  rfl

theorem isUsable_of_mem_lines {name : String}
    (bare : ∀ line ∈ document.lines, Encoding.IsBare line.text)
    (h : name ∈ document.lines.flatMap fun line => Encoding.evaluated deferred line.text) :
    IsUsable name := by
  obtain ⟨line, hl, hn⟩ := List.mem_flatMap.1 h
  exact Encoding.isUsable_of_mem_evaluated (bare line hl) hn

theorem missing_eq_undefined (spec : Spec)
    (bare : ∀ line ∈ document.lines, Encoding.IsBare line.text) :
    ((contentOutline document).missing (Emission.names deferred spec)).eraseDups =
      document.undefined deferred spec := by
  rw [missing_contentOutline (Emission.names_mode deferred spec), Document.undefined]
  congr 1
  apply List.filter_congr
  intro name hn
  have usable := isUsable_of_mem_lines bare hn
  rw [Emission.names_of_ne usable.mode, Spec.has]
  cases spec.get? name <;> rfl

theorem extends_undefined (spec : Spec) (document : Document) :
    spec.Extends (document.undefined deferred spec)
      ((document.undefined deferred spec).foldl Spec.placehold spec) := by
  apply Spec.Extends.foldl_placehold (Resolver.nodup_eraseDups _)
  intro name hn
  have absent := (List.mem_filter.1 (List.mem_eraseDups.1 hn)).2
  rw [Bool.not_eq_true'] at absent
  exact Spec.has_eq_false_iff.1 absent

theorem names_defined {spec : Spec} {name : String}
    (h : name ∈ document.lines.flatMap fun line => Encoding.evaluated deferred line.text)
    (usable : IsUsable name) :
    Emission.names deferred ((document.undefined deferred spec).foldl Spec.placehold spec) name =
      some ((spec.get? name).getD (.object [])) := by
  rw [Emission.names_of_ne usable.mode, (extends_undefined spec document).get?]
  cases found : spec.get? name with
  | some v =>
    rw [if_neg, Option.getD_some]
    intro undefined
    have absent := (extends_undefined spec document).absent name undefined
    simp [found] at absent
  | none =>
    have undefined : name ∈ document.undefined deferred spec := by
      apply List.mem_eraseDups.2
      exact List.mem_filter.2 ⟨h, by simp [Spec.has, found]⟩
    rw [if_pos undefined, Option.getD_none]

theorem value_defined {spec : Spec} {expr : String}
    (h : Text.trim expr ∈
      document.lines.flatMap fun line => Encoding.evaluated deferred line.text)
    (usable : IsUsable (Text.trim expr)) :
    Append.value (Emission.names deferred
        ((document.undefined deferred spec).foldl Spec.placehold spec)) expr =
      Names.shown spec.get? expr := by
  rw [Append.value, Names.rendered, names_defined h usable, Names.shown, Names.rendered]
  cases spec.get? (Text.trim expr) <;> rfl

theorem missing_defined (spec : Spec)
    (bare : ∀ line ∈ document.lines, Encoding.IsBare line.text) :
    (contentOutline document).missing (Emission.names deferred
      ((document.undefined deferred spec).foldl Spec.placehold spec)) = [] := by
  rw [missing_contentOutline (Emission.names_mode deferred _), List.filter_eq_nil_iff]
  intro name hn
  rw [names_defined hn (isUsable_of_mem_lines bare hn)]
  simp

theorem text_defined (spec : Spec)
    (bare : ∀ line ∈ document.lines, Encoding.IsBare line.text) :
    (contentOutline document).text (Emission.names deferred
      ((document.undefined deferred spec).foldl Spec.placehold spec)) =
        document.rendered deferred spec := by
  rw [text_contentOutline (Emission.names_mode deferred _), Document.rendered]
  congr 1
  apply List.map_congr_left
  intro line hl
  apply Encoding.rendered_congr
  intro expr he
  have evaluated : Text.trim expr ∈
      document.lines.flatMap fun line => Encoding.evaluated deferred line.text :=
    List.mem_flatMap.2 ⟨line, hl, he⟩
  exact value_defined evaluated (isUsable_of_mem_lines bare evaluated)

/-! ## Compilation -/

theorem levels_block (run : List (String × Bool)) :
    (blockOnto run .done).levels ≤ Parser.depthLimit := by
  have shallow (line : String) : Encoding.levels line ≤ 5 := by
    unfold Encoding.levels
    split <;> decide
  have levels : (blockOnto run .done).levels ≤ max 5 0 :=
    levels_blockOnto .done fun line _ => shallow line.1
  exact Nat.le_trans levels (by decide)

theorem levels_contentOutline (document : Document) :
    (contentOutline document).levels ≤ Parser.depthLimit := levels_block _

theorem proper_contentOutline (bare : ∀ line ∈ document.lines, Encoding.IsBare line.text) :
    (contentOutline document).Proper := by
  have last : Outline.Proper .done := trivial
  refine proper_blockOnto (fun line hl => ?_) last
  obtain ⟨source, hs, rfl⟩ := List.mem_map.1 hl
  exact bare source (List.mem_filter.1 hs).1

/--
A document without directives runs to its text.  The fields that it misses are found at once: either
they are more than may be defined, or they are defined and it runs once more.
-/
theorem run_content (tree : FileTree) (spec : Spec) (maxAttempts : Nat) (deferred : Bool)
    (quiet : HasQuietOpening document.path)
    (content : ∀ line ∈ document.lines, (Line.classify line.text).isContent = true)
    (bare : ∀ line ∈ document.lines, Encoding.IsBare line.text) :
    ∃ emitter, compile tree spec none false document = .ok emitter ∧
      emitter.run ⟨maxAttempts, deferred, 0⟩ spec =
        (if maxAttempts < (document.undefined deferred spec).length then
          .error (.retryExhausted 1 (document.undefined deferred spec))
        else
          .ok ⟨document.rendered deferred spec, document.undefined deferred spec,
            if document.undefined deferred spec = [] then 1 else 2⟩,
        (document.undefined deferred spec).foldl Spec.placehold spec) := by
  have kept : ∀ line ∈ document.lines, (Line.classify line.text).isInclude = false := by
    intro line hl
    exact Line.isInclude_eq_false_of_isContent (content line hl)
  obtain ⟨emitter, body, compiled, program, script⟩ := compile_of_outline tree spec quiet kept
    (lexesLines_content content bare) (levels_contentOutline document)
  have fits (spec : Spec) : (contentOutline document).Fits (Emission.names deferred spec) :=
    (fits_blockOnto (Emission.names_mode deferred spec)).2 trivial
  have run := @run_outline _ _ _ ⟨maxAttempts, deferred, 0⟩ _ _ program script
    (proper_contentOutline bare) rfl (fits spec) (missing_eq_undefined spec bare) (fits _)
    (missing_defined spec bare)
  rw [text_defined spec bare] at run
  exact ⟨emitter, compiled, run⟩

theorem run_content_of_greeting :
    HasQuietOpening ⟨"page"⟩ ∧ ∃ emitter,
      compile ⟨[], []⟩ ⟨[("name", .string "Bob")]⟩ none false
        ⟨⟨"page"⟩, "Hi $\x7bname\x7d!\n$$\x7b day \x7d"⟩ = .ok emitter ∧
      emitter.run ⟨100, false, 0⟩ ⟨[("name", .string "Bob")]⟩ =
        (.ok ⟨"Hi Bob!\n", ["day"], 2⟩, ⟨[("day", .object []), ("name", .string "Bob")]⟩) := by
  have quiet : HasQuietOpening ⟨"page"⟩ := hasQuietOpening (by simp)
  have text : Document.rendered false ⟨[("name", .string "Bob")]⟩
      ⟨⟨"page"⟩, "Hi $\x7bname\x7d!\n$$\x7b day \x7d"⟩ = "Hi Bob!\n" := by
    decide +kernel
  have undefined : Document.undefined false ⟨[("name", .string "Bob")]⟩
      ⟨⟨"page"⟩, "Hi $\x7bname\x7d!\n$$\x7b day \x7d"⟩ = ["day"] := by
    decide +kernel
  obtain ⟨emitter, compiled, run⟩ :=
    @run_content ⟨⟨"page"⟩, "Hi $\x7bname\x7d!\n$$\x7b day \x7d"⟩ ⟨[], []⟩
      ⟨[("name", .string "Bob")]⟩ 100 false quiet (by decide +kernel) (by decide +kernel)
  rw [text, undefined] at run
  exact ⟨quiet, emitter, compiled, run⟩

/-- The path can end the opening comment without a newline; what follows is read as code. -/
theorem run_content_of_carriage_return :
    OneLine "a\x0db" ∧
      (∀ line ∈ Document.lines ⟨⟨"a\x0db"⟩, "x"⟩, (Line.classify line.text).isContent = true) ∧
      (∀ line ∈ Document.lines ⟨⟨"a\x0db"⟩, "x"⟩, Encoding.IsBare line.text) ∧
      Document.undefined false ⟨[]⟩ ⟨⟨"a\x0db"⟩, "x"⟩ = [] ∧
      Document.rendered false ⟨[]⟩ ⟨⟨"a\x0db"⟩, "x"⟩ = "x" ∧
      ∃ emitter, compile ⟨[], []⟩ ⟨[]⟩ none false ⟨⟨"a\x0db"⟩, "x"⟩ = .ok emitter ∧
        ∃ message location fragment, emitter.run ⟨100, false, 0⟩ ⟨[]⟩ =
          (.error (.syntaxError message location fragment), ⟨[]⟩) := by
  have content : ∀ line ∈ Document.lines ⟨⟨"a\x0db"⟩, "x"⟩,
      (Line.classify line.text).isContent = true := by
    decide +kernel
  have compiled := @compile_of_kept ⟨[], []⟩ ⟨[]⟩ none false ⟨⟨"a\x0db"⟩, "x"⟩
    fun line hl => Line.isInclude_eq_false_of_isContent (content line hl)
  refine ⟨by decide, content, by decide +kernel, by decide +kernel, by decide +kernel, _, compiled,
    ?_⟩
  apply run_of_unreadable
  decide +kernel

end

end Emitter

end Stencil
