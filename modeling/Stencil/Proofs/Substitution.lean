import Mathlib.Data.List.Forall2
import Stencil.Proofs.Passes
import Stencil.Proofs.Script.Splicing.Expressions

/-!
# Substitutions of expressions

An expression that is accepted by itself, ends by itself and leaves no constant in sight is the same
expression between the tokens that are generated around it: it can neither break nor swallow what
stands behind it.  So the emitter of a document with such expressions parses, and each statement of it
is the one that its line asks for.
-/

namespace Stencil

open Script
open Script.Lexer (Lexes LexesLines IsTerminated tokensOf)

/-- An expression by itself that can be put between the tokens of a script. -/
structure Script.IsContained (limit : Nat) (text : String) : Prop where
  accepted : ∃ e r, readExpression limit text = .ok (e, r) ∧ r.IsOpen
  terminated : IsTerminated text

instance (limit : Nat) (text : String) : Decidable (IsContained limit text) :=
  decidable_of_iff ((readExpression limit text).toOption.any
      (fun (_, r) => r.vars.all fun v => !v.2) = true ∧ IsTerminated text)
    ⟨fun ⟨accepted, terminated⟩ => by
      cases read : readExpression limit text with
      | error fault => simp [read, Except.toOption] at accepted
      | ok found =>
        obtain ⟨e, r⟩ := found
        simp only [read, Except.toOption, Option.any_some, List.all_eq_true] at accepted
        exact ⟨⟨e, r, read, fun v hv => by simpa using accepted v hv⟩, terminated⟩,
    fun ⟨⟨e, r, read, open_⟩, terminated⟩ => by
      refine ⟨?_, terminated⟩
      simp only [read, Except.toOption, Option.any_some]
      exact List.all_eq_true.2 fun v hv => by simp [open_ v hv]⟩

namespace Append

/-- The tokens of a statement, those of its expression among them. -/
def spliced : Append → List Token
  | .literal text => [.name "code", .sign "+=", .text text, .sign ";"]
  | .guarded expr => guard (.sign "(" :: (tokensOf expr ++ [.sign ")"])) (fallback expr)

/-- The statement `s` appends what is asked for. -/
inductive IsRead (limit : Nat) : Append → Stmt → Prop
  | literal {text : String} (p q u : Pos) :
      IsRead limit (.literal text) (Outline.appending (.const (.string text) u) p q)
  | guarded {expr : String} {e e' : Expr} {r : Reading}
      (read : readExpression limit expr = .ok (e, r)) (same : SameExpr e e')
      (p q u b p' q' u' b' w : Pos) :
      IsRead limit (.guarded expr)
        (.attempt (.block [Outline.appending (.call "_render" [e'] u) p q] b) none
          (.block [Outline.appending (.const (.string (fallback expr)) u') p' q'] b') w)

variable {limit fuel : Nat} {K : List Function → Prop} {around : Around} {a : Append}
  {as : List Append}

theorem lexes_spliced (h : ∀ expr, a = .guarded expr → OneLine expr ∧ IsContained limit expr)
    (rest : List Char) : Lexes a.script.toList a.spliced rest := by
  cases a with
  | literal text => exact lexes_appending text
  | guarded expr =>
    obtain ⟨line, contained⟩ := h expr rfl
    obtain ⟨e, r, read, -⟩ := contained.accepted
    exact lexes_guarded (Lexer.lexes_terminated contained.terminated line
      (Parser.foldl_depthsBehind contained.terminated read))

/-- Functions that an expression adds to those before it keep `K`. -/
def Grows (limit : Nat) (K : List Function → Prop) (a : Append) : Prop :=
  ∀ expr e r, a = .guarded expr → readExpression limit expr = .ok (e, r) →
    ∀ fs fs', K fs → fs'.length = r.functions.length + fs.length → K fs'

theorem readsFirst_spliced (contained : ∀ expr, a = .guarded expr → IsContained limit expr)
    (grows : a.Grows limit K)
    (flags : around.inLoop = false ∧ around.inFunction = false ∧ around.inPattern = false)
    (depth : around.depth + limit + 3 ≤ around.limit) (enough : 16 * a.spliced.length ≤ fuel) :
    Parser.ReadsFirst K fuel around a.spliced (IsRead limit a) := by
  cases a with
  | literal text =>
    obtain ⟨k, rfl⟩ : ∃ k, fuel = k + 5 := ⟨fuel - 5, by simp [spliced] at enough; omega⟩
    refine Parser.readsFirst_text.mono ?_
    rintro _ ⟨p, q, u, rfl⟩
    exact .literal p q u
  | guarded expr =>
    obtain ⟨⟨e, r, read, free⟩, terminated⟩ := contained expr rfl
    have count : (tokens expr).length = (tokensOf expr).length + 1 := by
      simpa using congrArg List.length terminated.alone
    simp only [spliced, guard, List.length_append, List.length_cons, List.length_nil] at enough
    obtain ⟨k, rfl⟩ : ∃ k, fuel = k + 9 := ⟨fuel - 9, by omega⟩
    refine ⟨.word "try", .sign "\x7b" :: .name "code" :: .sign "+=" :: .name "_render" ::
      .sign "(" :: (tokensOf expr ++ [.sign ")", .sign ";", .sign "\x7d", .word "catch",
        .sign "\x7b", .name "code", .sign "+=", .text (fallback expr), .sign ";", .sign "\x7d"]),
      [], by simp [spliced, guard], by simp, by simp, fun u us => ?_⟩
    have call := @Parser.reads_call_of_terminated limit k expr e r K
      { around with top := false, depth := around.depth + 2 } "_render" (.sign ";")
      (.sign "\x7d" :: .word "catch" :: .sign "\x7b" :: .name "code" :: .sign "+=" ::
        .text (fallback expr) :: .sign ";" :: .sign "\x7d" :: u :: us)
      terminated read free flags (by simp; omega) (by rw [Parser.fuelFor, count]; omega)
      (by simp [Parser.stops]) (grows expr e r rfl read)
    have guarded := Parser.reads_guarded_of (by omega) call
    simp only [List.nil_append, List.cons_append, List.append_assoc] at guarded ⊢
    refine guarded.mono ?_
    rintro _ ⟨⟨_, p, q, b, p', q', u', b', w, ⟨e', v, same, rfl⟩, rfl⟩, closes⟩
    exact ⟨.guarded read same p q v b p' q' u' b' w, closes⟩

theorem readsBody_spliced
    (contained : ∀ expr, .guarded expr ∈ as → IsContained limit expr)
    (grows : ∀ a ∈ as, a.Grows limit K)
    (flags : around.inLoop = false ∧ around.inFunction = false ∧ around.inPattern = false)
    (depth : around.depth + limit + 3 ≤ around.limit)
    (enough : 16 * (as.flatMap spliced).length + 16 ≤ fuel) :
    Parser.ReadsBody K fuel around (as.flatMap spliced) (List.Forall₂ (IsRead limit) as) := by
  induction as generalizing fuel with
  | nil =>
    obtain ⟨k, rfl⟩ : ∃ k, fuel = k + 1 := ⟨fuel - 1, by omega⟩
    exact Parser.readsBody_nil .nil
  | cons a more ih =>
    obtain ⟨k, rfl⟩ : ∃ k, fuel = k + 2 := ⟨fuel - 2, by omega⟩
    rw [List.flatMap_cons] at enough ⊢
    have filled : 0 < a.spliced.length := by
      cases a <;> simp [spliced, guard]
    simp only [List.length_append] at enough
    have first := @readsFirst_spliced limit (k + 1) K around a
      (fun expr h => contained expr (h ▸ List.mem_cons_self)) (grows a List.mem_cons_self) flags
      depth (by omega)
    have others := @ih (k + 1) (fun expr h => contained expr (List.mem_cons_of_mem a h))
      (fun b h => grows b (List.mem_cons_of_mem a h)) (by omega)
    refine (Parser.readsBody_cons first others).mono ?_
    rintro _ ⟨s, ss, rfl, read, reads⟩
    exact .cons read reads

end Append

namespace Emitter

variable {limit room : Nat} {K : List Function → Prop} {document : Document}

/-- The content lines of a document that are emitted. -/
def gathered (document : Document) : List (String × Bool) :=
  (document.lines.filter (!isVoid ·)).map (·.content)

/-- The statements of a block of content lines; there are none for no lines. -/
def IsBlock (limit : Nat) (run : List (String × Bool)) (ss : List Stmt) : Prop :=
  if run = [] then ss = []
  else ∃ yes no p q u w, List.Forall₂ (Append.IsRead limit) (Encoding.rows true run) yes ∧
    List.Forall₂ (Append.IsRead limit) (Encoding.rows false run) no ∧
    ss = [.branch (.variable Resolver.modeName p) (.block yes q) (.block no u) w]

/-- The tokens of the block of a run of content lines. -/
def splicedBlock (run : List (String × Bool)) : List Token :=
  if run = [] then []
  else blockTokens ((Encoding.rows true run).flatMap Append.spliced)
    ((Encoding.rows false run).flatMap Append.spliced)

theorem readsScript_block {run : List (String × Bool)} {fuel : Nat}
    (contained : ∀ line ∈ run, ∀ expr ∈ (segments line.1).filterMap Segment.expr?,
      IsContained limit expr)
    (grows : ∀ line ∈ run, ∀ expr ∈ (segments line.1).filterMap Segment.expr?,
      (Append.guarded expr).Grows limit K) (depth : limit + 5 ≤ room)
    (enough : 16 * (splicedBlock run).length + 16 ≤ fuel) :
    Parser.ReadsScript K fuel ⟨true, false, false, false, 0, room⟩ (splicedBlock run)
      (IsBlock limit run) := by
  have row (deferred : Bool) (expr : String) (h : .guarded expr ∈ Encoding.rows deferred run) :
      IsContained limit expr := by
    obtain ⟨line, hl, he⟩ := Encoding.mem_exprs_of_mem_rows h
    exact contained line hl expr he
  have grow (deferred : Bool) : ∀ a ∈ Encoding.rows deferred run, a.Grows limit K := by
    intro a ha
    cases a with
    | literal text => exact nofun
    | guarded expr =>
      obtain ⟨line, hl, he⟩ := Encoding.mem_exprs_of_mem_rows ha
      exact grows line hl expr he
  unfold splicedBlock IsBlock at *
  by_cases empty : run = []
  · simp only [empty, if_true]
    obtain ⟨k, rfl⟩ : ∃ k, fuel = k + 6 := ⟨fuel - 6, by omega⟩
    exact Parser.readsScript_nil rfl
  · simp only [empty, if_false] at enough ⊢
    simp only [blockTokens, List.length_append, List.length_cons, List.length_nil] at enough
    obtain ⟨k, rfl⟩ : ∃ k, fuel = k + 8 := ⟨fuel - 8, by omega⟩
    have body (deferred : Bool) (enough : 16 *
        ((Encoding.rows deferred run).flatMap Append.spliced).length + 16 ≤ k + 4) :=
      @Append.readsBody_spliced limit (k + 4) K ⟨false, false, false, false, 2, room⟩ _
        (row deferred) (grow deferred) ⟨rfl, rfl, rfl⟩ (by simp; omega) enough
    have first := @Parser.readsFirst_branch K k ⟨true, false, false, false, 0, room⟩
      Resolver.modeName _ _ _ _ (by simp; omega) (body true (by omega)) (body false (by omega))
    have block := Parser.readsScript_cons first (Parser.readsScript_nil (R := (· = [])) rfl)
      (by simp)
    rw [List.append_nil] at block
    refine block.mono ?_
    rintro _ ⟨_, _, rfl, ⟨yes, no, p, q, u, w, hy, hn, rfl⟩, rfl⟩
    exact ⟨yes, no, p, q, u, w, hy, hn, rfl⟩

theorem lexesLines_splicedBlock {run : List SourceLine}
    (line : ∀ line ∈ run, OneLine line.text)
    (contained : ∀ line ∈ run, ∀ expr ∈ (segments line.text).filterMap Segment.expr?,
      IsContained limit expr) :
    LexesLines ((block run).map (·.code)) (splicedBlock (run.map (·.content))) := by
  have rows (deferred : Bool) := @Encoding.lexesLines_rows deferred (run.map (·.content))
    Append.spliced fun content hc a ha rest => by
      obtain ⟨source, hs, rfl⟩ := List.mem_map.1 hc
      refine @Append.lexes_spliced limit a (fun expr he => ?_) rest
      subst he
      obtain ⟨segment, hseg, some_expr⟩ := List.mem_filterMap.1 (Encoding.mem_exprs_of_mem_statements ha)
      exact ⟨Segment.oneLine_expr (line source hs) hseg some_expr,
        contained source hs expr (Encoding.mem_exprs_of_mem_statements ha)⟩
  have lines := lexesLines_block_of (rows true) (rows false)
  cases run with
  | nil => exact lines
  | cons source more => simpa [splicedBlock, Encoding.rows] using lines

/-- The emitter of a document without directives is the block of its lines, as its lines ask for. -/
theorem exists_body_of_grows (tree : FileTree) (spec : Spec)
    (quiet : HasQuietOpening document.path)
    (content : ∀ line ∈ document.lines, (Line.classify line.text).isContent = true)
    (contained : ∀ expr ∈ document.exprs, IsContained limit expr) (none : K [])
    (grows : ∀ expr ∈ document.exprs, (Append.guarded expr).Grows limit K)
    (depth : limit + 5 ≤ room) :
    ∃ emitter functions body, compile tree spec .none false document = .ok emitter ∧
      parseWithin room emitter.source = .ok ⟨functions.reverse, body⟩ ∧ K functions ∧
      IsFramed (IsBlock limit (gathered document)) body := by
  have kept : ∀ line ∈ document.lines, (Line.classify line.text).isInclude = false := by
    intro line hl
    exact Line.isInclude_eq_false_of_isContent (content line hl)
  have within : ∀ line ∈ document.lines.filter (!isVoid ·),
      ∀ expr ∈ (segments line.text).filterMap Segment.expr?, IsContained limit expr := by
    intro line hl expr he
    exact contained expr (List.mem_flatMap.2 ⟨line, (List.mem_filter.1 hl).1, he⟩)
  obtain ⟨emitter, compiled, lines⟩ := compile_of_lines tree spec kept
  have read := (lexesLines_splicedBlock
    (fun line hl => Document.oneLine_of_mem_lines (List.mem_filter.1 hl).1) within).append
      (@LexesLines.line [] "" fun _ => Lexes.nil)
  rw [List.append_nil] at read
  rw [codes_content content] at lines
  have whole := tokens_of_lexesLines quiet lines read
  have rows : ∀ line ∈ gathered document, ∀ expr ∈ (segments line.1).filterMap Segment.expr?,
      expr ∈ document.exprs := by
    intro line hl expr he
    obtain ⟨source, hs, rfl⟩ := List.mem_map.1 hl
    exact List.mem_flatMap.2 ⟨source, (List.mem_filter.1 hs).1, he⟩
  have open_ : (splicedBlock (gathered document)).head? ≠ some .ended := by
    unfold splicedBlock
    split <;> simp [blockTokens]
  obtain ⟨functions, body, parsed, holds, framed⟩ := parseWithin_of_frame none whole open_
    (readsScript_block (fun line hl expr he => contained expr (rows line hl expr he))
      (fun line hl expr he => grows expr (rows line hl expr he)) depth (by omega))
  exact ⟨emitter, functions, body, compiled, parsed, holds, framed⟩

theorem exists_body (tree : FileTree) (spec : Spec) (quiet : HasQuietOpening document.path)
    (content : ∀ line ∈ document.lines, (Line.classify line.text).isContent = true)
    (contained : ∀ expr ∈ document.exprs, IsContained limit expr) (none : K [])
    (grows : ∀ a : Append, a.Grows limit K) (depth : limit + 5 ≤ room) :
    ∃ emitter functions body, compile tree spec .none false document = .ok emitter ∧
      parseWithin room emitter.source = .ok ⟨functions.reverse, body⟩ ∧ K functions ∧
      IsFramed (IsBlock limit (gathered document)) body :=
  exists_body_of_grows tree spec quiet content contained none (fun expr _ => grows (.guarded expr))
    depth

/--
Whatever its expressions are, the emitter of a document without directives parses, if it may be
nested five levels deeper than they are.
-/
theorem parseWithin_source (tree : FileTree) (spec : Spec)
    (quiet : HasQuietOpening document.path)
    (content : ∀ line ∈ document.lines, (Line.classify line.text).isContent = true)
    (contained : ∀ expr ∈ document.exprs, IsContained limit expr) (depth : limit + 5 ≤ room) :
    ∃ emitter program, compile tree spec none false document = .ok emitter ∧
      parseWithin room emitter.source = .ok program := by
  obtain ⟨emitter, functions, body, compiled, parsed, -⟩ :=
    exists_body (K := fun _ => True) tree spec quiet content contained trivial
      (fun _ _ _ _ _ _ _ _ _ _ => trivial) depth
  exact ⟨emitter, _, compiled, parsed⟩

theorem parseWithin_source_of_closure :
    HasQuietOpening ⟨"page"⟩ ∧ ∃ emitter program,
      compile ⟨[], []⟩ ⟨[]⟩ none false
        ⟨⟨"page"⟩, "a $\x7b[1, 2].map(|x| x + /* one */ 1)\x7d\n$$\x7by \x7d"⟩ =
        .ok emitter ∧
      parseWithin Parser.depthLimit emitter.source = .ok program := by
  have quiet : HasQuietOpening ⟨"page"⟩ := hasQuietOpening (by simp)
  exact ⟨quiet, @parseWithin_source 43 48
    ⟨⟨"page"⟩, "a $\x7b[1, 2].map(|x| x + /* one */ 1)\x7d\n$$\x7by \x7d"⟩
    ⟨[], []⟩ ⟨[]⟩ quiet (by decide +kernel) (by decide +kernel) (by decide)⟩

/-- A comment to the end of the line is no part of an expression, and hides what is behind it. -/
theorem not_parse_source_of_comment :
    OneLine "page" ∧
      (∀ line ∈ Document.lines ⟨⟨"page"⟩, "$\x7bx // c\x7d"⟩,
        (Line.classify line.text).isContent = true) ∧
      (∀ expr ∈ Document.exprs ⟨⟨"page"⟩, "$\x7bx // c\x7d"⟩,
        (parseExpression expr).isOk = true) ∧
      ∃ emitter, compile ⟨[], []⟩ ⟨[]⟩ none false ⟨⟨"page"⟩, "$\x7bx // c\x7d"⟩ = .ok emitter ∧
        (parse emitter.source).isOk = false := by
  have content : ∀ line ∈ Document.lines ⟨⟨"page"⟩, "$\x7bx // c\x7d"⟩,
      (Line.classify line.text).isContent = true := by
    decide +kernel
  have compiled := @compile_of_kept ⟨[], []⟩ ⟨[]⟩ none false ⟨⟨"page"⟩, "$\x7bx // c\x7d"⟩
    fun line hl => Line.isInclude_eq_false_of_isContent (content line hl)
  exact ⟨by decide, content, by decide +kernel, _, compiled, by decide +kernel⟩

end Emitter

end Stencil
