import Stencil.Proofs.Encoding
import Stencil.Proofs.Recovery
import Stencil.Proofs.Structure
import Stencil.Proofs.Script.Reading
import Stencil.Proofs.Script.Running

/-!
# Emitters with an outline

Where the lines of an emitter are read as an outline, the emitter is a script of this outline: it
parses, a run gives the text of the outline, and the names that the outline misses are defined
before it runs once more.  A block of content lines is read as a conditional on the mode of emission.
-/

namespace Stencil

open Script
open Script.Lexer (IsVariable Lexes LexesLines IsGap isGap_comment)
open Script.Lexer.Lexes

/-! ## Conditionals and loops -/

section

variable {name item : String} {rest : List Char}

theorem lexes_if (h : IsVariable name) :
    Lexes ("if " ++ name ++ " \x7b").toList [.word "if", .name name, .sign "\x7b"] rest := by
  have parts : ("if " ++ name ++ " \x7b").toList =
      "if".toList ++ (' ' :: name.toList ++ [' ', '\x7b']) := by
    simp
  have space : Text.isBlank ' ' = true := by decide
  have word : "if" ∈ grammarWords := by decide
  rw [parts]
  apply append (keyword word (endsWord_cons (by decide)))
  apply append (blank space (variable_name h (endsWord_cons (by decide))))
  exact blank space opening_brace

theorem lexes_else :
    Lexes "\x7d else \x7b".toList [.sign "\x7d", .word "else", .sign "\x7b"] rest := by
  have parts : "\x7d else \x7b".toList = ['\x7d'] ++ (' ' :: "else".toList ++ [' ', '\x7b']) := by
    simp
  have space : Text.isBlank ' ' = true := by decide
  have word : "else" ∈ grammarWords := by decide
  rw [parts]
  apply append closing_brace
  apply append (blank space (keyword word (endsWord_cons (by decide))))
  exact blank space opening_brace

theorem lexes_end : Lexes "\x7d".toList [.sign "\x7d"] rest := closing_brace

theorem lexes_for (hi : IsVariable item) (h : IsVariable name) :
    Lexes ("for " ++ item ++ " in " ++ name ++ " \x7b").toList
      [.word "for", .name item, .word "in", .name name, .sign "\x7b"] rest := by
  have parts : ("for " ++ item ++ " in " ++ name ++ " \x7b").toList =
      "for".toList ++ (' ' :: item.toList ++ (' ' :: "in".toList ++
        (' ' :: name.toList ++ [' ', '\x7b']))) := by
    simp
  have space : Text.isBlank ' ' = true := by decide
  have first : "for" ∈ grammarWords := by decide
  have second : "in" ∈ grammarWords := by decide
  rw [parts]
  apply append (keyword first (endsWord_cons (by decide)))
  apply append (blank space (variable_name hi (endsWord_cons (by decide))))
  apply append (blank space (keyword second (endsWord_cons (by decide))))
  apply append (blank space (variable_name h (endsWord_cons (by decide))))
  exact blank space opening_brace

end

/-! ## Blocks -/

namespace Emitter

/-- A run of content lines in front of an outline. -/
def blockOnto (run : List (String × Bool)) (rest : Outline) : Outline :=
  if run.isEmpty then rest
  else .branch Resolver.modeName (Encoding.outline true run) (Encoding.outline false run) rest

variable {run : List (String × Bool)} {rest : Outline} {names : Names} {deferred : Bool}

theorem tokens_blockOnto (run : List (String × Bool)) (rest : Outline) :
    (blockOnto run rest).tokens = (blockOnto run .done).tokens ++ rest.tokens := by
  unfold blockOnto
  split
  · rfl
  · simp [Outline.tokens]

theorem text_blockOnto (mode : names Resolver.modeName = some (.bool deferred)) :
    (blockOnto run rest).text names =
      (Encoding.outline deferred run).text names ++ rest.text names := by
  unfold blockOnto
  split
  · rename_i empty
    simp [List.isEmpty_iff.1 empty, Encoding.outline, Outline.text]
  · cases deferred <;> simp [Outline.text, Names.isTrue, mode]

theorem missing_blockOnto (mode : names Resolver.modeName = some (.bool deferred)) :
    (blockOnto run rest).missing names =
      (Encoding.outline deferred run).missing names ++ rest.missing names := by
  unfold blockOnto
  split
  · rename_i empty
    simp [List.isEmpty_iff.1 empty, Encoding.outline, Outline.missing]
  · cases deferred <;> simp [Outline.missing, Names.isTrue, mode]

theorem fits_blockOnto (mode : names Resolver.modeName = some (.bool deferred)) :
    (blockOnto run rest).Fits names ↔ rest.Fits names := by
  unfold blockOnto
  split
  · rfl
  · simp [Outline.Fits, mode, Encoding.fits_outline]

theorem levels_blockOnto {n : Nat} (rest : Outline)
    (h : ∀ line ∈ run, Encoding.levels line.1 ≤ n) :
    (blockOnto run rest).levels ≤ max n rest.levels := by
  unfold blockOnto
  cases run with
  | nil => exact Nat.le_max_right n rest.levels
  | cons line more =>
    have two : 2 ≤ n := by
      have bound := h line List.mem_cons_self
      unfold Encoding.levels at bound
      split at bound <;> omega
    have inside : ∀ other ∈ line :: more, Encoding.levels other.1 ≤ n - 2 + 2 := by
      rwa [Nat.sub_add_cancel two]
    have yes := @Encoding.levels_outline true _ _ inside
    have no := @Encoding.levels_outline false _ _ inside
    rw [List.isEmpty_cons, if_neg (by decide), Outline.levels]
    omega

theorem proper_blockOnto (h : ∀ line ∈ run, Encoding.IsBare line.1) (behind : rest.Proper) :
    (blockOnto run rest).Proper := by
  unfold blockOnto
  split
  · exact behind
  · exact ⟨by decide, Encoding.proper_outline h, Encoding.proper_outline h, behind⟩

/-- The tokens of a block around those of its two branches. -/
def blockTokens (yes no : List Token) : List Token :=
  [.word "if", .name Resolver.modeName, .sign "\x7b"] ++ yes ++
    [.sign "\x7d", .word "else", .sign "\x7b"] ++ no ++ [.sign "\x7d"]

theorem lexesLines_block_of {run : List SourceLine} {yes no : List Token}
    (hy : LexesLines ((run.map (·.content)).map fun line => Encoding.script true line.1 line.2) yes)
    (hn : LexesLines ((run.map (·.content)).map fun line => Encoding.script false line.1 line.2) no) :
    LexesLines ((block run).map (·.code)) (if run.isEmpty then [] else blockTokens yes no) := by
  have codes (deferred : Bool) : (encoded deferred run).map (·.code) =
      (run.map (·.content)).map fun line => Encoding.script deferred line.1 line.2 := by
    simp [encoded, SourceLine.content, Function.comp_def]
  have mode : IsVariable Resolver.modeName := by decide
  unfold block
  cases run with
  | nil => exact LexesLines.nil
  | cons line more =>
    rw [if_neg (by simp), if_neg (by simp)]
    have front := LexesLines.cons (fun _ => lexes_if mode) hy
    have back := LexesLines.cons (fun _ => lexes_else) (hn.append (LexesLines.line fun _ => lexes_end))
    simpa [plain, codes, blockTokens] using front.append back

theorem lexesLines_block {run : List SourceLine} (h : ∀ line ∈ run, Encoding.IsBare line.text) :
    LexesLines ((block run).map (·.code)) (blockOnto (run.map (·.content)) .done).tokens := by
  have bare : ∀ line ∈ run.map (·.content), Encoding.IsBare line.1 := by
    simpa [SourceLine.content] using h
  have lines := lexesLines_block_of (@Encoding.lexesLines_outline true _ bare)
    (@Encoding.lexesLines_outline false _ bare)
  cases run with
  | nil => exact lines
  | cons line more => simpa [blockOnto, blockTokens, Outline.tokens] using lines

/-! ## Scripts -/

/-- The opening comment of an emitter is read as nothing, which depends on the path in it. -/
def HasQuietOpening (path : Path) : Prop :=
  IsGap (("// emitter program for " ++ path.text).toList ++ ['\n'])

theorem hasQuietOpening {path : Path} (h : ∀ c ∈ path.text.toList, c ≠ '\n' ∧ c ≠ '\r') :
    HasQuietOpening path := by
  have comment : ("// emitter program for " ++ path.text).toList ++ ['\n'] =
      '/' :: '/' :: (" emitter program for ".toList ++ path.text.toList ++ ['\n']) := by
    simp
  have fixed : ∀ c ∈ " emitter program for ".toList, c ≠ '\n' ∧ c ≠ '\r' := by simp
  unfold HasQuietOpening
  rw [comment]
  apply isGap_comment
  intro c hc
  rcases List.mem_append.1 hc with hc | hc
  · exact fixed c hc
  · exact h c hc

theorem toList_intercalate_newline (lines : List String) (last : String) :
    (String.intercalate "\n" (lines ++ [last])).toList =
      (lines.flatMap fun line => line.toList ++ ['\n']) ++ last.toList := by
  induction lines with
  | nil => simp
  | cons line rest ih =>
    obtain ⟨next, more, eq⟩ : ∃ next more, rest ++ [last] = next :: more := by
      cases rest <;> simp
    rw [List.cons_append, eq, String.intercalate_cons_cons, ← eq, String.toList_append, ih]
    simp

theorem lexes_declaration {rest : List Char} :
    Lexes "let code = \"\";".toList
      [.word "let", .name "code", .sign "=", .text "", .sign ";"] rest := by
  have parts : "let code = \"\";".toList = ("let " ++ "code" ++ " =").toList ++
      ((' ' :: (Text.literal "").toList) ++ [';']) := by
    decide
  have space : Text.isBlank ' ' = true := by decide
  have name : IsVariable "code" := by decide
  rw [parts]
  exact (declaration name (.inl rfl)).append ((blank space (Lexes.literal "" (by simp))).append semicolon)

theorem tokens_of_lexesLines {emitter : Emitter} {path : Path} {codes : List String} {ts : List Token}
    (quiet : HasQuietOpening path)
    (lines : emitter.lines.map (·.code) =
      ("// emitter program for " ++ path.text) :: "let code = \"\";" :: codes ++ ["code"])
    (read : LexesLines codes ts) :
    (tokens emitter.source).map (·.token) = frame ts := by
  have name : IsVariable "code" := by decide
  have comment : LexesLines ["// emitter program for " ++ path.text] [] := by
    intro rest
    rw [List.flatMap_singleton]
    exact Lexes.gap quiet
  have front := comment.append (LexesLines.cons (fun _ => lexes_declaration) read)
  have source : Lexes emitter.source.toList
      ([] ++ ([.word "let", .name "code", .sign "=", .text "", .sign ";"] ++ ts) ++
        [.name "code"]) [] := by
    rw [source, lines, toList_intercalate_newline]
    apply Lexes.append (front _)
    exact variable_name name (by simp [EndsWord])
  rw [Lexer.tokens_of_lexes (source false), frame]
  simp

theorem program_of_outline {emitter : Emitter} {path : Path} {codes : List String} {o : Outline}
    (quiet : HasQuietOpening path)
    (lines : emitter.lines.map (·.code) =
      ("// emitter program for " ++ path.text) :: "let code = \"\";" :: codes ++ ["code"])
    (read : LexesLines codes o.tokens) (depth : o.levels ≤ Parser.depthLimit) :
    ∃ body, emitter.program = .ok ⟨[], Simplify.body body⟩ ∧ o.IsScript body := by
  have whole : (tokens emitter.source).map (·.token) = o.scriptTokens ++ [.ended] := by
    rw [tokens_of_lexesLines quiet lines read, frame, Outline.scriptTokens]
    simp
  obtain ⟨body, parsed, script⟩ := parse_of_tokens whole depth
  refine ⟨body, ?_, script⟩
  rw [program, parsed]
  rfl

theorem run_of_unreadable {emitter : Emitter} (options : Emission.Options) (spec : Spec)
    (unreadable : (parse emitter.source).isOk = false) :
    ∃ message location fragment,
      emitter.run options spec = (.error (.syntaxError message location fragment), spec) := by
  cases parsed : parse emitter.source with
  | ok program => simp [parsed, Except.isOk, Except.toBool] at unreadable
  | error fault =>
    have program : emitter.program =
        .error (emitter.syntaxFault fault.reason (some fault.pos.line)) := by
      rw [Emitter.program, parsed]
    have kind : ∃ message location fragment,
        emitter.syntaxFault fault.reason (some fault.pos.line) =
          .syntaxError message location fragment := by
      unfold syntaxFault
      split
      · exact ⟨_, _, _, rfl⟩
      · exact ⟨_, _, _, rfl⟩
    obtain ⟨message, location, fragment, eq⟩ := kind
    refine ⟨message, location, fragment, ?_⟩
    simp only [run, program, eq]

/-- The lines of the emitter of a document without includes. -/
theorem compile_of_lines {document : Document} (tree : FileTree) (spec : Spec)
    (kept : ∀ line ∈ document.lines, (Line.classify line.text).isInclude = false) :
    ∃ emitter, compile tree spec none false document = .ok emitter ∧
      emitter.lines.map (·.code) =
        ("// emitter program for " ++ document.path.text) :: "let code = \"\";" ::
          (body [] ((document.lines ++ [closing document]).map
            fun line => (line, Line.classify line.text))).map (·.code) ++ ["code"] := by
  refine ⟨_, @compile_of_kept tree spec none false document kept, ?_⟩
  simp [opening, ending, plain]

theorem compile_of_outline {document : Document} {o : Outline} (tree : FileTree) (spec : Spec)
    (quiet : HasQuietOpening document.path)
    (kept : ∀ line ∈ document.lines, (Line.classify line.text).isInclude = false)
    (read : LexesLines ((body [] ((document.lines ++ [closing document]).map
      fun line => (line, Line.classify line.text))).map (·.code)) o.tokens)
    (depth : o.levels ≤ Parser.depthLimit) :
    ∃ emitter body, compile tree spec none false document = .ok emitter ∧
      emitter.program = .ok ⟨[], Simplify.body body⟩ ∧ o.IsScript body := by
  obtain ⟨emitter, compiled, lines⟩ := compile_of_lines tree spec kept
  obtain ⟨body, program, script⟩ := program_of_outline quiet lines read depth
  exact ⟨emitter, body, compiled, program, script⟩

end Emitter

/-! ## Runs -/

namespace Emission

def names (deferred : Bool) (spec : Spec) : Names := (Resolver.start spec deferred).meaning?

theorem names_mode (deferred : Bool) (spec : Spec) :
    names deferred spec Resolver.modeName = some (.bool deferred) := rfl

theorem names_of_ne {deferred : Bool} {spec : Spec} {name : String}
    (h : name ≠ Resolver.modeName) : names deferred spec name = spec.get? name := if_neg h

/--
Where the names fit, the program comes to the text that `text` tells and misses the names that
`missing` tells.
-/
def Prints (program : Program) (fits : Names → Prop) (text : Names → String)
    (missing : Names → List String) : Prop :=
  ∀ below r, r.Sound → fits (names r.deferred r.spec) → ∃ scope' r',
    Eval.Ends (Eval.stmts (Eval.engine program.functions) below program.body) [] r
      (.ok (.string (text (names r.deferred r.spec)))) scope' r' ∧
    Resolver.Later r (missing (names r.deferred r.spec)) r'

/--
In one mode and against a spec that fits, the program comes to the text that `text` tells of the spec
and misses the names that `missing` tells.
-/
def Writes (program : Program) (deferred : Bool) (fits : Spec → Prop) (text : Spec → String)
    (missing : Spec → List String) : Prop :=
  ∀ below r, r.Sound → r.deferred = deferred → fits r.spec → ∃ scope' r',
    Eval.Ends (Eval.stmts (Eval.engine program.functions) below program.body) [] r
      (.ok (.string (text r.spec))) scope' r' ∧
    Resolver.Later r (missing r.spec) r'

theorem Prints.writes {program : Program} {fits : Names → Prop} {text : Names → String}
    {missing : Names → List String} (prints : Prints program fits text missing) (deferred : Bool) :
    Writes program deferred (fun spec => fits (names deferred spec))
      (fun spec => text (names deferred spec)) (fun spec => missing (names deferred spec)) := by
  rintro below r sound rfl fit
  exact prints below r sound fit

theorem prints_outline {o : Outline} {body : List Stmt} (script : o.IsScript body)
    (proper : o.Proper) : Prints ⟨[], Simplify.body body⟩ o.Fits o.text o.missing := by
  intro below r sound fits
  obtain ⟨scope', r', ends, -, later⟩ :=
    @Eval.ends_script [] r below o proper body script (by simp) sound fits
  exact ⟨scope', r', ends, later⟩

variable {program : Program} {fits : Spec → Prop} {text : Spec → String}
  {missing : Spec → List String} {options : Options} {r : Resolver}

theorem attempt_of_writes (writes : Writes program options.deferred fits text missing)
    (unbounded : options.maxOperations = 0) (sound : r.Sound) (mode : r.deferred = options.deferred)
    (fit : fits r.spec) :
    ∃ r', attempt program options r = (.output (text r.spec), r') ∧
      Resolver.Later r (missing r.spec) r' := by
  obtain ⟨scope, r', ends, later⟩ :=
    writes (Eval.script (Eval.engine program.functions) Eval.levelLimit) r sound mode fit
  refine ⟨r', ?_, later⟩
  obtain ⟨n, run⟩ := ends (Machine.start []) rfl
  change (Eval.script ⟨program.functions, 0, true⟩ (Eval.levelLimit + 1) program.body
    (Machine.start [])).run Resolver.answerer r = _ at run
  rw [attempt, unbounded, Program.evaluate, evaluate, Inquiry.run_bind, run]
  rfl

theorem discovered_output {text : String} {found : List String} {r' : Resolver} (fresh : Fresh r)
    (later : Resolver.Later r found r') : discovered (.output text) r' = found.eraseDups := by
  change r'.undefined = found.eraseDups
  rw [later.undefined, fresh.unrecorded, Resolver.noteAll_empty]

/-- A program that misses nothing comes to its output at once. -/
theorem recover_clean {emitter : Emitter} {defined : List String} {attempts : Nat}
    (writes : Writes program options.deferred fits text missing)
    (unbounded : options.maxOperations = 0) (fresh : Fresh r) (mode : r.deferred = options.deferred)
    (fit : fits r.spec) (found : missing r.spec = []) :
    recover emitter program options defined attempts r =
      (.ok ⟨text r.spec, defined, attempts + 1⟩, r.spec) := by
  obtain ⟨r', run, later⟩ := attempt_of_writes writes unbounded fresh.toSound mode fit
  have none_found : discovered (.output (text r.spec)) r' = [] := by
    rw [discovered_output fresh later, found, List.eraseDups_nil]
  rw [recover_of_run run none_found, ← later.spec]
  rfl

end Emission

namespace Emitter

open Emission

/--
An emitter whose program writes a text runs once, and once more if names are missed, unless these are
more than may be defined.
-/
theorem run_of_writes {emitter : Emitter} {program : Program} {options : Emission.Options}
    {fits : Spec → Prop} {text : Spec → String} {missing : Spec → List String} {spec : Spec}
    {undefined : List String} (programmed : emitter.program = .ok program)
    (writes : Writes program options.deferred fits text missing)
    (unbounded : options.maxOperations = 0) (fit : fits spec)
    (found : (missing spec).eraseDups = undefined)
    (fit_again : fits (undefined.foldl Spec.placehold spec))
    (none_found : missing (undefined.foldl Spec.placehold spec) = []) :
    emitter.run options spec =
      (if options.maxAttempts < undefined.length then .error (.retryExhausted 1 undefined)
        else .ok ⟨text (undefined.foldl Spec.placehold spec), undefined,
          if undefined = [] then 1 else 2⟩,
        undefined.foldl Spec.placehold spec) := by
  have fresh := fresh_start spec options.deferred
  have start : emitter.run options spec =
      recover emitter program options [] 0 (Resolver.start spec options.deferred) := by
    simp only [run, programmed]
  rw [start]
  cases undefined with
  | nil =>
    exact recover_clean writes unbounded fresh rfl fit none_found
  | cons name more =>
    obtain ⟨r', run, later⟩ := attempt_of_writes writes unbounded fresh.toSound rfl fit
    change attempt _ options _ = (.output (text spec), r') at run
    have defined : discovered (.output (text spec)) r' = name :: more :=
      (discovered_output fresh later).trans found
    have restarted := fresh_restart (.output (text spec)) later.sound
    rw [defined] at restarted
    have spec_eq : (restart (name :: more) r').spec = (name :: more).foldl Spec.placehold spec := by
      rw [restart_spec, later.spec]
      rfl
    have deferred_eq : (restart (name :: more) r').deferred = options.deferred :=
      (restart_deferred _ _).trans later.deferred
    rw [recover, run]
    simp only [defined, List.nil_append]
    by_cases beyond : options.maxAttempts < (name :: more).length
    · rw [if_pos beyond, if_pos beyond, ← spec_eq]
      rfl
    · rw [if_neg beyond, if_neg beyond]
      rw [← spec_eq] at fit_again none_found
      have clean := @recover_clean _ _ _ _ _ _ emitter (name :: more) 1 writes unbounded restarted
        deferred_eq fit_again none_found
      rw [spec_eq] at clean
      rw [if_neg (List.cons_ne_nil name more)]
      exact clean

theorem run_of_prints {emitter : Emitter} {program : Program} {fits : Names → Prop}
    {text : Names → String} {missing : Names → List String} {options : Emission.Options}
    {spec : Spec} {undefined : List String} (programmed : emitter.program = .ok program)
    (prints : Prints program fits text missing) (unbounded : options.maxOperations = 0)
    (fit : fits (names options.deferred spec))
    (found : (missing (names options.deferred spec)).eraseDups = undefined)
    (fit_again : fits (names options.deferred (undefined.foldl Spec.placehold spec)))
    (none_found : missing (names options.deferred (undefined.foldl Spec.placehold spec)) = []) :
    emitter.run options spec =
      (if options.maxAttempts < undefined.length then .error (.retryExhausted 1 undefined)
        else .ok ⟨text (names options.deferred (undefined.foldl Spec.placehold spec)), undefined,
          if undefined = [] then 1 else 2⟩,
        undefined.foldl Spec.placehold spec) :=
  run_of_writes programmed (prints.writes options.deferred) unbounded fit found fit_again none_found

theorem run_outline {emitter : Emitter} {o : Outline} {body : List Stmt}
    {options : Emission.Options} {spec : Spec} {missing : List String}
    (program : emitter.program = .ok ⟨[], Simplify.body body⟩) (script : o.IsScript body)
    (proper : o.Proper) (unbounded : options.maxOperations = 0)
    (fits : o.Fits (names options.deferred spec))
    (found : (o.missing (names options.deferred spec)).eraseDups = missing)
    (fits_again : o.Fits (names options.deferred (missing.foldl Spec.placehold spec)))
    (none_found : o.missing (names options.deferred (missing.foldl Spec.placehold spec)) = []) :
    emitter.run options spec =
      (if options.maxAttempts < missing.length then .error (.retryExhausted 1 missing)
        else .ok ⟨o.text (names options.deferred (missing.foldl Spec.placehold spec)), missing,
          if missing = [] then 1 else 2⟩,
        missing.foldl Spec.placehold spec) :=
  run_of_prints program (prints_outline script proper) unbounded fits found fits_again none_found

end Emitter

end Stencil
