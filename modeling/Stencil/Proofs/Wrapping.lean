import Stencil.Proofs.Content

/-!
# Wrapped documents

An emitter may wrap what it emits: the header that makes the spec addressable stands in front of it,
and a brace on a line of its own behind it.  The header is that of the spec as it is in the run, the
fields among it that were defined before.  A wrapped emitter misses the names that the plain one
misses, so that it runs as often and leaves the same spec, and its output is wrapped once.
-/

namespace Stencil

open Script
open Script.Lexer (IsVariable Lexes LexesLines)

namespace Spec

/-- What a generated script is around the output of its document. -/
def wrapped (spec : Spec) (output : String) : String :=
  spec.embeddingHeader ++ output ++
    (if output ≠ "" ∧ output.toList.getLast? ≠ some '\n' then "\n" else "") ++ "\x7d\n"

theorem getLast?_bindings {front : String} (names : List String)
    (h : front.toList.getLast? = some '\n') :
    (front ++ String.join (names.map binding)).toList.getLast? = some '\n' := by
  induction names generalizing front with
  | nil => simpa using h
  | cons name rest ih =>
    rw [List.map_cons, String.join_cons, ← String.append_assoc]
    apply ih
    rw [binding, String.toList_append, List.getLast?_append, String.toList_append,
      List.getLast?_append]
    rfl

theorem getLast?_embeddingHeader (spec : Spec) :
    spec.embeddingHeader.toList.getLast? = some '\n' := by
  apply getLast?_bindings
  rw [String.toList_append, List.getLast?_append]
  rfl

/-- Behind the header, a line is open if the output is more than lines. -/
theorem getLast?_header_append (spec : Spec) (output : String) :
    (spec.embeddingHeader ++ output).toList.getLast? = some '\n' ↔
      output = "" ∨ output.toList.getLast? = some '\n' := by
  rw [String.toList_append, List.getLast?_append, getLast?_embeddingHeader]
  by_cases empty : output = ""
  · simp [empty]
  · cases ending : output.toList.getLast? with
    | none => exact absurd (String.toList_eq_nil_iff.1 (List.getLast?_eq_none_iff.1 ending)) empty
    | some c => simp [empty]

end Spec

/-! ## The tokens around a document -/

namespace Emitter

def headerTokens : List Token :=
  [.name "code", .sign "+=", .name "_spec_header", .sign "()", .sign ";"]

/-- The statement that ends an open line. -/
def lineEndTokens : List Token :=
  [.word "if", .sign "!", .name "code", .sign ".", .name "ends_with", .sign "(", .text "\n",
    .sign ")", .sign "\x7b", .name "code", .sign "+=", .text "\n", .sign ";", .sign "\x7d"]

def braceTokens : List Token := [.name "code", .sign "+=", .text "\x7d\n", .sign ";"]

section

open Script.Lexer.Lexes

variable {rest : List Char}

theorem lexes_header : Lexes "code += _spec_header();".toList headerTokens rest := by
  have parts : "code += _spec_header();".toList =
      "code".toList ++ ([' ', '+', '='] ++ (' ' :: "_spec_header".toList ++ (['(', ')'] ++ [';']))) := by
    decide
  have code : IsVariable "code" := by decide
  have header : IsVariable "_spec_header" := by decide
  have space : Text.isBlank ' ' = true := by decide
  rw [parts]
  apply append (variable_name code (endsWord_cons (by decide)))
  apply append (blank space plus_equals)
  apply append (blank space (variable_name header (endsWord_cons (by decide))))
  exact append empty_parentheses semicolon

theorem lexes_lineEnd :
    Lexes "if !code.ends_with(\"\\n\") \x7b code += \"\\n\"; \x7d".toList lineEndTokens rest := by
  have parts : "if !code.ends_with(\"\\n\") \x7b code += \"\\n\"; \x7d".toList =
      "if".toList ++ ([' ', '!'] ++ ("code".toList ++ (['.'] ++ ("ends_with".toList ++ (['('] ++
        ((Text.literal "\n").toList ++ ([')'] ++ ([' ', '\x7b'] ++
        (' ' :: ("code += " ++ Text.literal "\n" ++ ";").toList ++ [' ', '\x7d']))))))))) := by
    decide
  have word : "if" ∈ grammarWords := by decide
  have code : IsVariable "code" := by decide
  have method : IsVariable "ends_with" := by decide
  have space : Text.isBlank ' ' = true := by decide
  rw [parts]
  apply append (keyword word (endsWord_cons (by decide)))
  apply append (blank space (exclamation rfl))
  apply append (variable_name code (endsWord_cons (by decide)))
  apply append (dot (c := 'e') rfl (by decide))
  apply append (variable_name method (endsWord_cons (by decide)))
  apply append (opening_parenthesis (c := '"') rfl (by decide) (by decide))
  apply append (Lexes.literal "\n" (by simp))
  apply append closing_parenthesis
  apply append (blank space opening_brace)
  exact append (blank space (Append.lexes_appending "\n")) (blank space closing_brace)

theorem lexes_brace : Lexes "code += \"\x7d\\n\";".toList braceTokens rest := by
  have text : "code += \"\x7d\\n\";" = "code += " ++ Text.literal "\x7d\n" ++ ";" := by decide
  rw [text]
  exact Append.lexes_appending "\x7d\n"

end

/-! ## Reading them -/

def IsHeader (s : Stmt) : Prop :=
  ∃ p q u, s = Outline.appending (.call "_spec_header" [] u) p q

def IsLineEnd (s : Stmt) : Prop :=
  ∃ p q u v b p' q' u' w z, s =
    .branch (.operator "!" [.chain (.variable "code" p)
        [.method "ends_with" [.const (.string "\n") q] u false]] v)
      (.block [Outline.appending (.const (.string "\n") u') p' q'] b) (.skip w) z

def IsBrace (s : Stmt) : Prop :=
  ∃ p q u, s = Outline.appending (.const (.string "\x7d\n") u) p q

/-- The statements of an outline with the header in front of them and the ending behind them. -/
def IsWrapped (o : Outline) : List Stmt → Prop :=
  Parser.Begins IsHeader
    (Parser.Onto o (Parser.Begins IsLineEnd (Parser.Begins IsBrace (· = []))))

def wrappedTokens (ts : List Token) : List Token :=
  headerTokens ++ (ts ++ (lineEndTokens ++ braceTokens))

section

open Script.Parser

variable {K : List Function → Prop} {fuel : Nat} {a : Around} {us : List Token}
  {R : List Stmt → Prop}

theorem readsFirst_header : ReadsFirst K (fuel + 5) a headerTokens IsHeader := by
  refine ⟨.name "code", [.sign "+=", .name "_spec_header", .sign "()"], [.sign ";"], rfl, by simp,
    by simp, fun v vs => ?_⟩
  refine Reads.mono (reads_appending (reads_call_empty (by simp [stops]))) ?_
  rintro s ⟨_, p, q, ⟨u, rfl⟩, rfl⟩
  exact ⟨⟨p, q, u, rfl⟩, closes_appending⟩

theorem reads_lineEnd {v : Token} {vs : List Token} (hv : v ≠ .word "else")
    (depth : a.depth + 3 ≤ a.limit) :
    Reads K (statement (fuel + 14) a) (lineEndTokens ++ v :: vs) (v :: vs)
      (fun s => IsLineEnd s ∧ Closes s []) := by
  have text : ReadsBody K (fuel + 11) { a with top := false, depth := a.depth + 2 }
      ([.name "code", .sign "+=", .text "\n", .sign ";"] ++ [])
      (Begins (fun s => ∃ p q u, s = Outline.appending (.const (.string "\n") u) p q) (· = [])) :=
    readsBody_cons readsFirst_text (readsBody_nil rfl)
  have open_ (ts : List Token) :
      Reads K (expression (fuel + 11) ({ a with depth := a.depth + 1 } : Around).inner)
        (.sign "!" :: .name "code" :: .sign "." :: .name "ends_with" :: .sign "(" :: .text "\n" ::
          .sign ")" :: .sign "\x7b" :: ts) (.sign "\x7b" :: ts) _ :=
    reads_negation (by simp [stops]) (show a.depth + 1 < a.limit by omega)
      (reads_method (by simp [stops]) (show a.depth + 2 < a.limit by omega)) (by simp)
  have condition (ts : List Token) := reads_condition_of (by simp) (by
    rintro _ ⟨_, p, -, rfl⟩
    rfl) (open_ ts)
  refine (reads_branch_alone hv (by omega) (condition _) text).mono ?_
  rintro s ⟨⟨_, _, b, w, z, ⟨_, v, ⟨p, q, u, rfl⟩, rfl⟩, ⟨_, _, rfl, ⟨p', q', u', rfl⟩, rfl⟩, rfl⟩,
    closes⟩
  exact ⟨⟨p, q, u, v, b, p', q', u', w, z, rfl⟩, closes⟩

theorem readsScript_ending {k : Nat} (depth : a.depth + 3 ≤ a.limit) (enough : 15 ≤ k) :
    ReadsScript K k a (lineEndTokens ++ braceTokens)
      (Begins IsLineEnd (Begins IsBrace (· = []))) := by
  obtain ⟨fuel, rfl⟩ : ∃ fuel, k = fuel + 15 := ⟨k - 15, by omega⟩
  have brace : ReadsScript K (fuel + 14) a (braceTokens ++ []) (Begins IsBrace (· = [])) :=
    readsScript_cons readsFirst_text (readsScript_nil rfl) (by simp)
  intro acc
  refine reads_script_cons (by simp) (by simp) (reads_lineEnd (by simp) depth) fun s hs => ?_
  refine (brace (s :: acc)).mono ?_
  rintro ss ⟨more, p, rfl, holds⟩
  exact ⟨s :: more, p, by simp, s, more, rfl, hs, holds⟩

theorem readsScript_wrapped (o : Outline) (enough : 2 * o.tokens.length + 22 ≤ fuel)
    (depth : a.depth + o.levels ≤ a.limit) (room : a.depth + 3 ≤ a.limit) :
    ReadsScript K fuel a (wrappedTokens o.tokens) (IsWrapped o) := by
  obtain ⟨k, rfl⟩ : ∃ k, fuel = k + 6 := ⟨fuel - 6, by omega⟩
  have behind := reads_onto (n := 16) o (rowwise_script (K := K) (a := a))
    (fun fuel h => readsScript_ending room (by omega)) (by simp [lineEndTokens])
    (show _ ≤ k + 5 by omega) (Nat.le_refl 16) depth
  exact readsScript_cons readsFirst_header behind
    (head?_tokens_append o (by simp [lineEndTokens]))

end

theorem program_of_wrapped {emitter : Emitter} {path : Path} {codes : List String} {o : Outline}
    (quiet : HasQuietOpening path)
    (lines : emitter.lines.map (·.code) =
      ("// emitter program for " ++ path.text) :: "let code = \"\";" ::
        ("code += _spec_header();" :: (codes ++
          ["if !code.ends_with(\"\\n\") \x7b code += \"\\n\"; \x7d",
            "code += \"\x7d\\n\";"])) ++ ["code"])
    (read : LexesLines codes o.tokens) (depth : o.levels ≤ Parser.depthLimit) :
    ∃ body, emitter.program = .ok ⟨[], Simplify.body body⟩ ∧ IsFramed (IsWrapped o) body := by
  have ending := LexesLines.cons (fun _ => lexes_lineEnd) (LexesLines.line fun _ => lexes_brace)
  have whole := tokens_of_lexesLines quiet lines
    (LexesLines.cons (fun _ => lexes_header) (read.append ending))
  obtain ⟨_, body, parsed, rfl, framed⟩ := parseWithin_of_frame (K := (· = [])) rfl whole
    (by simp [headerTokens]) (readsScript_wrapped o (by simp; omega) (by simpa using depth) (by decide))
  refine ⟨body, ?_, framed⟩
  rw [program, ← parseWithin_depthLimit, parsed]
  rfl

end Emitter

/-! ## Running them -/

namespace Script.Eval

variable {outer : List Binding} {vars : List (String × Json)} {out : String}
  {scope : List Binding} {r : Resolver} {below : Below} {p q u v : Pos}

theorem ends_header : Ends (expr (engine []) below (.call "_spec_header" [] p)) scope r
    (.ok (.string r.spec.embeddingHeader)) scope r := by
  have asked : Ends header scope r (.ok r.spec.embeddingHeader) scope r := by
    rintro m rfl
    exact ⟨m.operations, rfl⟩
  apply Ends.bind Ends.tick
  apply Ends.bind Ends.ok
  exact Ends.bind asked Ends.pure

theorem yields_endsWith (hs : Scope outer vars out scope) :
    Yields (expr (engine []) below (.chain (.variable "code" p)
      [.method "ends_with" [.const (.string "\n") q] u false])) scope
      (.bool (['\n'].isSuffixOf out.toList)) scope := by
  have plain : ∀ id, (⟨"code", .string out, false⟩ : Binding).value ≠ .cell id := by simp
  have steps : Yields (accesses (engine []) below
      [.method "ends_with" [.const (.string "\n") q] u false]) scope
      [.method "ends_with" [.string "\n"] u false] scope :=
    .bind (.bind (.bind (.tick rfl) .pure) (.bind .ok .pure)) (.bind .ok .pure)
  have called : Yields (Eval.method (engine []) below "ends_with" (.string out) false
      [.string "\n"] u) scope (.bool (['\n'].isSuffixOf out.toList), .string out) scope :=
    .bind (.tick rfl) .ok
  have walked : Yields (walk (engine []) below [.method "ends_with" [.string "\n"] u false] false
      (.string out)) scope (.bool (['\n'].isSuffixOf out.toList), .string out) scope :=
    .bind called (.bind .ok .pure)
  exact .bind steps (.bind (.tick rfl) (.bind (.lookup hs.find?_code plain)
    (.bind walked (.bind (.assign_self hs.find?_code plain) .pure))))

theorem ends_lineEnd {b p' q' u' w z : Pos} (hs : Scope outer vars out scope) :
    ∃ scope', Ends (stmt (engine []) below
        (.branch (.operator "!" [.chain (.variable "code" p)
            [.method "ends_with" [.const (.string "\n") q] u false]] v)
          (.block [Outline.appending (.const (.string "\n") u') p' q'] b) (.skip w) z))
        scope r (.ok .unit) scope' r ∧
      Scope outer vars (out ++ if out.toList.getLast? = some '\n' then "" else "\n") scope' := by
  have ended : ['\n'].isSuffixOf out.toList = true ↔ out.toList.getLast? = some '\n' := by
    rw [List.isSuffixOf_iff_suffix, List.getLast?_eq_some_iff]
    exact exists_congr fun front => eq_comm
  have negated : Ends (expr (engine []) below (.operator "!" [.chain (.variable "code" p)
      [.method "ends_with" [.const (.string "\n") q] u false]] v)) scope r
      (.ok (.bool (!(['\n'].isSuffixOf out.toList)))) scope r := by
    have operands : Ends (exprs (engine []) below [.chain (.variable "code" p)
        [.method "ends_with" [.const (.string "\n") q] u false]]) scope r
        (.ok [.bool (['\n'].isSuffixOf out.toList)]) scope r :=
      Ends.bind (Ends.of_yields (yields_endsWith hs)) (Ends.bind Ends.ok Ends.pure)
    exact Ends.bind Ends.tick (Ends.bind operands Ends.ok)
  by_cases closed : out.toList.getLast? = some '\n'
  · refine ⟨scope, ?_, ?_⟩
    · apply Ends.bind Ends.tick
      apply Ends.bind negated
      rw [ended.2 closed]
      exact Ends.bind Ends.ok Ends.ok
    · rwa [if_pos closed, String.append_empty]
  · obtain ⟨scope', appended, hs'⟩ := @ends_block_appending [] _ _ _ _ r p' below _ q' _ _ b hs
      (@ends_const [] scope r u' below (.string "\n"))
    refine ⟨scope', ?_, ?_⟩
    · apply Ends.bind Ends.tick
      apply Ends.bind negated
      rw [eq_false_of_ne_true (mt ended.1 closed)]
      exact Ends.bind Ends.ok appended
    · rwa [if_neg closed]

/-- Wrapped statements put the text of the outline behind the header of the spec, and close it. -/
theorem performs_wrapped {o : Outline} {ss : List Stmt} (proper : o.Proper)
    (wrapped : Emitter.IsWrapped o ss) (hr : r.Sound) (fits : o.Fits (sight [] r)) :
    ∃ scope' r', Performs [] below (Simplify.prune false (Simplify.stmts true ss))
        [⟨"code", .string "", false⟩] r scope' r' ∧
      Scope [] [] (r.spec.wrapped (o.text (sight [] r))) scope' ∧
      Resolver.Later r (o.missing (sight [] r)) r' := by
  obtain ⟨_, _, rfl, ⟨p, q, u, rfl⟩, front, _, rfl, shape, _, _, rfl,
    ⟨p1, q1, u1, v1, b1, p2, q2, u2, w1, z1, rfl⟩, _, _, rfl, ⟨p3, q3, u3, rfl⟩, rfl⟩ := wrapped
  have simplified : Simplify.prune false (Simplify.stmts true
      (Outline.appending (.call "_spec_header" [] u) p q :: (front ++
        [.branch (.operator "!" [.chain (.variable "code" p1)
            [.method "ends_with" [.const (.string "\n") q1] u1 false]] v1)
          (.block [Outline.appending (.const (.string "\n") u2) p2 q2] b1) (.skip w1) z1,
        Outline.appending (.const (.string "\x7d\n") u3) p3 q3]))) =
      Outline.appending (.call "_spec_header" [] u) p q ::
        (Simplify.prune false (Simplify.stmts true front) ++
        [.branch (.operator "!" [.chain (.variable "code" p1)
            [.method "ends_with" [.const (.string "\n") q1] u1 false]] v1)
          (.block [Outline.appending (.const (.string "\n") u2) p2 q2] b1) (.skip w1) z1,
        Outline.appending (.const (.string "\x7d\n") u3) p3 q3]) := by
    rw [Simplify.prune_false, Simplify.stmts, Simplify.stmts_append, List.filter_cons_of_pos rfl,
      List.filter_append, ← Simplify.prune_false]
    rfl
  rw [simplified]
  obtain ⟨s1, opened, hs1⟩ := @ends_appending [] _ _ _ _ r p below _ q _ _
    (@Scope.code [] "" (by simp)) ends_header
  have works : Works below o front := works_of_shape proper shape
  obtain ⟨s2, r', body, hs2, later⟩ := works false true [] [] _ s1 r hs1 hr fits
  obtain ⟨s3, ended, hs3⟩ := @ends_lineEnd _ _ _ _ r' below p1 q1 u1 v1 b1 p2 q2 u2 w1 z1 hs2
  obtain ⟨s4, closed, hs4⟩ := @ends_appending [] _ _ _ _ r' p3 below _ q3 _ _ hs3
    (@ends_const [] s3 r' u3 below (.string "\x7d\n"))
  refine ⟨s4, r', .cons opened (body.append (.cons ended (.cons closed .nil))), ?_, later⟩
  have text : r.spec.wrapped (o.text (sight [] r)) = "" ++ r.spec.embeddingHeader ++
      o.text (sight [] r) ++ (if ("" ++ r.spec.embeddingHeader ++
        o.text (sight [] r)).toList.getLast? = some '\n' then "" else "\n") ++ "\x7d\n" := by
    rw [String.empty_append, Spec.wrapped]
    simp only [Spec.getLast?_header_append]
    by_cases open_ : o.text (sight [] r) = "" ∨ (o.text (sight [] r)).toList.getLast? = some '\n'
    · rw [if_pos open_, if_neg fun inside => open_.elim inside.1 inside.2]
    · rw [if_neg open_, if_pos (not_or.1 open_)]
  rwa [text]

end Script.Eval

/-! ## Runs -/

theorem Emission.writes_wrapped {o : Outline} {body : List Stmt} (proper : o.Proper)
    (framed : IsFramed (Emitter.IsWrapped o) body) (deferred : Bool) :
    Emission.Writes ⟨[], Simplify.body body⟩ deferred (fun spec => o.Fits (names deferred spec))
      (fun spec => spec.wrapped (o.text (names deferred spec)))
      (fun spec => o.missing (names deferred spec)) := by
  rintro below r sound rfl fits
  obtain ⟨ss, p, q, u, wrapped, rfl⟩ := framed
  obtain ⟨scope', r', ends, -, later⟩ :=
    Eval.ends_frame (Eval.performs_wrapped proper wrapped sound fits)
  exact ⟨scope', r', ends, later⟩

namespace Emitter

variable {document : Document}

theorem compile_of_lines_wrapped (tree : FileTree) (spec : Spec)
    (kept : ∀ line ∈ document.lines, (Line.classify line.text).isInclude = false) :
    ∃ emitter, compile tree spec none true document = .ok emitter ∧
      emitter.lines.map (·.code) =
        ("// emitter program for " ++ document.path.text) :: "let code = \"\";" ::
          ("code += _spec_header();" :: ((body [] ((document.lines ++ [closing document]).map
            fun line => (line, Line.classify line.text))).map (·.code) ++
          ["if !code.ends_with(\"\\n\") \x7b code += \"\\n\"; \x7d",
            "code += \"\x7d\\n\";"])) ++ ["code"] := by
  refine ⟨_, @compile_of_kept tree spec none true document kept, ?_⟩
  simp [opening, ending, plain]

/-- A program that misses what the lines of a document miss is run as often as its plain emitter. -/
theorem run_of_writes_content {emitter : Emitter} {program : Program} {text : Spec → String}
    {deferred : Bool} (spec : Spec) (maxAttempts : Nat)
    (bare : ∀ line ∈ document.lines, Encoding.IsBare line.text)
    (programmed : emitter.program = .ok program)
    (writes : Emission.Writes program deferred
      (fun spec => (contentOutline document).Fits (Emission.names deferred spec)) text
      (fun spec => (contentOutline document).missing (Emission.names deferred spec))) :
    emitter.run ⟨maxAttempts, deferred, 0⟩ spec =
      (if maxAttempts < (document.undefined deferred spec).length then
        .error (.retryExhausted 1 (document.undefined deferred spec))
      else
        .ok ⟨text ((document.undefined deferred spec).foldl Spec.placehold spec),
          document.undefined deferred spec, if document.undefined deferred spec = [] then 1 else 2⟩,
      (document.undefined deferred spec).foldl Spec.placehold spec) := by
  have fits (spec : Spec) : (contentOutline document).Fits (Emission.names deferred spec) :=
    (fits_blockOnto (Emission.names_mode deferred spec)).2 trivial
  exact @run_of_writes emitter program ⟨maxAttempts, deferred, 0⟩ _ _ _ spec _ programmed writes rfl
    (fits spec) (missing_eq_undefined spec bare) (fits _) (missing_defined spec bare)

/-- The runs of a document without directives, wrapped or not. -/
theorem runs_content (tree : FileTree) (spec : Spec) (maxAttempts : Nat) (deferred : Bool)
    (quiet : HasQuietOpening document.path)
    (content : ∀ line ∈ document.lines, (Line.classify line.text).isContent = true)
    (bare : ∀ line ∈ document.lines, Encoding.IsBare line.text) (embed : Bool) :
    ∃ emitter, compile tree spec none embed document = .ok emitter ∧
      emitter.run ⟨maxAttempts, deferred, 0⟩ spec =
        (if maxAttempts < (document.undefined deferred spec).length then
          .error (.retryExhausted 1 (document.undefined deferred spec))
        else
          .ok ⟨if embed then ((document.undefined deferred spec).foldl Spec.placehold spec).wrapped
              (document.rendered deferred spec) else document.rendered deferred spec,
            document.undefined deferred spec,
            if document.undefined deferred spec = [] then 1 else 2⟩,
        (document.undefined deferred spec).foldl Spec.placehold spec) := by
  have kept : ∀ line ∈ document.lines, (Line.classify line.text).isInclude = false := by
    intro line hl
    exact Line.isInclude_eq_false_of_isContent (content line hl)
  have lexed := lexesLines_content content bare
  have levels := levels_contentOutline document
  have proper := proper_contentOutline bare
  cases embed with
  | false =>
    obtain ⟨emitter, body, compiled, program, script⟩ :=
      compile_of_outline tree spec quiet kept lexed levels
    have run := run_of_writes_content spec maxAttempts bare program
      ((Emission.prints_outline script proper).writes deferred)
    rw [text_defined spec bare] at run
    exact ⟨emitter, compiled, run⟩
  | true =>
    obtain ⟨emitter, compiled, lines⟩ := compile_of_lines_wrapped tree spec kept
    obtain ⟨body, program, framed⟩ := program_of_wrapped quiet lines lexed levels
    have run := run_of_writes_content spec maxAttempts bare program
      (Emission.writes_wrapped proper framed deferred)
    rw [text_defined spec bare] at run
    exact ⟨emitter, compiled, run⟩

/--
With embedding, a document without directives runs as it does without, and its output comes wrapped
once, in the header of the spec that the run leaves.
-/
theorem run_wrapped (tree : FileTree) (spec : Spec) (maxAttempts : Nat) (deferred : Bool)
    (quiet : HasQuietOpening document.path)
    (content : ∀ line ∈ document.lines, (Line.classify line.text).isContent = true)
    (bare : ∀ line ∈ document.lines, Encoding.IsBare line.text) :
    ∃ plain wrapped, compile tree spec none false document = .ok plain ∧
      compile tree spec none true document = .ok wrapped ∧
      ∀ result final, plain.run ⟨maxAttempts, deferred, 0⟩ spec = (result, final) →
        wrapped.run ⟨maxAttempts, deferred, 0⟩ spec =
          (result.map fun e => { e with output := final.wrapped e.output }, final) := by
  obtain ⟨plain, compiled_plain, run_plain⟩ :=
    runs_content tree spec maxAttempts deferred quiet content bare false
  obtain ⟨wrapped, compiled_wrapped, run_embedded⟩ :=
    runs_content tree spec maxAttempts deferred quiet content bare true
  refine ⟨plain, wrapped, compiled_plain, compiled_wrapped, fun result final run => ?_⟩
  rw [run_plain] at run
  obtain ⟨rfl, rfl⟩ := Prod.mk.inj run
  rw [run_embedded]
  by_cases beyond : maxAttempts < (document.undefined deferred spec).length
  · rw [if_pos beyond, if_pos beyond]
    rfl
  · rw [if_neg beyond, if_neg beyond]
    rfl

theorem run_wrapped_of_greeting :
    HasQuietOpening ⟨"page"⟩ ∧ ∃ plain wrapped,
      compile ⟨[], []⟩ ⟨[("name", .string "Bob")]⟩ none false
        ⟨⟨"page"⟩, "Hi $\x7bname\x7d!\n$\x7bday\x7dBye"⟩ = .ok plain ∧
      compile ⟨[], []⟩ ⟨[("name", .string "Bob")]⟩ none true
        ⟨⟨"page"⟩, "Hi $\x7bname\x7d!\n$\x7bday\x7dBye"⟩ = .ok wrapped ∧
      plain.run ⟨100, false, 0⟩ ⟨[("name", .string "Bob")]⟩ =
        (.ok ⟨"Hi Bob!\nBye", ["day"], 2⟩, ⟨[("day", .object []), ("name", .string "Bob")]⟩) ∧
      wrapped.run ⟨100, false, 0⟩ ⟨[("name", .string "Bob")]⟩ =
        (.ok ⟨"let _spec = #\x7b\"day\": #\x7b\x7d, \"name\": \"Bob\"\x7d;\n\x7b\n" ++
          "let day = _spec[\"day\"];\nlet name = _spec[\"name\"];\nHi Bob!\nBye\n\x7d\n", ["day"], 2⟩,
          ⟨[("day", .object []), ("name", .string "Bob")]⟩) := by
  have quiet : HasQuietOpening ⟨"page"⟩ := hasQuietOpening (by simp)
  have content : ∀ line ∈ Document.lines ⟨⟨"page"⟩, "Hi $\x7bname\x7d!\n$\x7bday\x7dBye"⟩,
      (Line.classify line.text).isContent = true := by
    decide +kernel
  have bare : ∀ line ∈ Document.lines ⟨⟨"page"⟩, "Hi $\x7bname\x7d!\n$\x7bday\x7dBye"⟩,
      Encoding.IsBare line.text := by
    decide +kernel
  have text : Document.rendered false ⟨[("name", .string "Bob")]⟩
      ⟨⟨"page"⟩, "Hi $\x7bname\x7d!\n$\x7bday\x7dBye"⟩ = "Hi Bob!\nBye" := by
    decide +kernel
  have undefined : Document.undefined false ⟨[("name", .string "Bob")]⟩
      ⟨⟨"page"⟩, "Hi $\x7bname\x7d!\n$\x7bday\x7dBye"⟩ = ["day"] := by
    decide +kernel
  obtain ⟨plain, wrapped, compiled_plain, compiled_wrapped, run⟩ :=
    @run_wrapped ⟨⟨"page"⟩, "Hi $\x7bname\x7d!\n$\x7bday\x7dBye"⟩ ⟨[], []⟩
      ⟨[("name", .string "Bob")]⟩ 100 false quiet content bare
  obtain ⟨emitter, compiled, run_plain⟩ :=
    @runs_content ⟨⟨"page"⟩, "Hi $\x7bname\x7d!\n$\x7bday\x7dBye"⟩ ⟨[], []⟩
      ⟨[("name", .string "Bob")]⟩ 100 false quiet content bare false
  obtain rfl : plain = emitter := Except.ok.inj (compiled_plain.symm.trans compiled)
  rw [text, undefined] at run_plain
  have shown : Spec.wrapped ⟨[("day", .object []), ("name", .string "Bob")]⟩ "Hi Bob!\nBye" =
      "let _spec = #\x7b\"day\": #\x7b\x7d, \"name\": \"Bob\"\x7d;\n\x7b\n" ++
        "let day = _spec[\"day\"];\nlet name = _spec[\"name\"];\nHi Bob!\nBye\n\x7d\n" := by
    decide +kernel
  rw [← shown]
  exact ⟨quiet, plain, wrapped, compiled_plain, compiled_wrapped, run_plain, run _ _ run_plain⟩

/-- A path that ends the opening comment can define a function in place of the header. -/
theorem run_wrapped_of_defined_header :
    OneLine "a\x0dfn _spec_header() \x7b \"\" \x7d" ∧
    (∀ line ∈ Document.lines ⟨⟨"a\x0dfn _spec_header() \x7b \"\" \x7d"⟩, ""⟩,
      (Line.classify line.text).isContent = true ∧ Encoding.IsBare line.text) ∧
    ∃ plain wrapped,
      compile ⟨[], []⟩ ⟨[]⟩ none false ⟨⟨"a\x0dfn _spec_header() \x7b \"\" \x7d"⟩, ""⟩ = .ok plain ∧
      compile ⟨[], []⟩ ⟨[]⟩ none true ⟨⟨"a\x0dfn _spec_header() \x7b \"\" \x7d"⟩, ""⟩ = .ok wrapped ∧
      (plain.run ⟨100, false, 0⟩ ⟨[]⟩).1.toOption = some ⟨"", [], 1⟩ ∧
      (wrapped.run ⟨100, false, 0⟩ ⟨[]⟩).1.toOption = some ⟨"\n\x7d\n", [], 1⟩ ∧
      (wrapped.run ⟨100, false, 0⟩ ⟨[]⟩).2.names = [] ∧
      Spec.wrapped ⟨[]⟩ "" = "let _spec = #\x7b\x7d;\n\x7b\n\x7d\n" := by
  have lines : ∀ line ∈ Document.lines ⟨⟨"a\x0dfn _spec_header() \x7b \"\" \x7d"⟩, ""⟩,
      (Line.classify line.text).isContent = true ∧ Encoding.IsBare line.text := by
    decide +kernel
  have kept : ∀ line ∈ Document.lines ⟨⟨"a\x0dfn _spec_header() \x7b \"\" \x7d"⟩, ""⟩,
      (Line.classify line.text).isInclude = false :=
    fun line hl => Line.isInclude_eq_false_of_isContent (lines line hl).1
  refine ⟨by decide, lines, _, _, compile_of_kept kept, compile_of_kept kept, ?_, ?_, ?_,
    by decide +kernel⟩
  · rw [run, program, parse, Parser.run, tokens_source]
    decide +kernel
  · rw [run, program, parse, Parser.run, tokens_source]
    decide +kernel
  · rw [run, program, parse, Parser.run, tokens_source]
    decide +kernel

end Emitter

end Stencil
