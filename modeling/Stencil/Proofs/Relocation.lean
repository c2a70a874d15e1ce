import Stencil.Proofs.Program
import Stencil.Proofs.Inlining

/-!
# A document at another path

The path of a document stands in the opening comment of its emitter and in the places of its lines.
Where the comments of two paths end at the same place of the script, the tokens behind them are the
same, places included.  So is all that the script does, and the path shows up only where a fault
tells what it is about.
-/

namespace Stencil

open Script
open Script.Lexer (skipGap scan skipGap_visible)

/-! ## Comments in front of a script -/

namespace Script.Lexer

theorem skipGap_slashes (p : Pos) (cs : List Char) :
    skipGap .space p ('/' :: '/' :: cs) = skipGap .line p.right.right cs := by
  rw [skipGap.eq_def]
  rfl

theorem skipGap_line_eq {text : List Char} (h : ∀ c ∈ text, c ≠ '\n' ∧ c ≠ '\r') (p : Pos)
    (rest : List Char) :
    skipGap .line p (text ++ '\n' :: rest) = skipGap .space p.down rest := by
  induction text generalizing p with
  | nil =>
    rw [List.nil_append, skipGap.eq_def]
    simp
  | cons c more ih =>
    obtain ⟨newline, carriage⟩ := h c List.mem_cons_self
    have step : skipGap .line p (c :: (more ++ '\n' :: rest)) =
        skipGap .line p.right (more ++ '\n' :: rest) := by
      rw [skipGap.eq_def]
      simp [newline, carriage]
    rw [List.cons_append, step, ih fun d hd => h d (List.mem_cons_of_mem _ hd)]
    rfl

/-- A reader that skips what stands before a token goes on from the place of the token. -/
theorem scan_of_skipGap {s : State} {cs r : List Char} {c : Char} {p : Pos}
    (outside : s.inText = false) (visible : Text.isBlank c = false) (slash : c ≠ '/')
    (skipped : skipGap .space s.pos cs = (p, c :: r)) (long : (c :: r).length ≤ cs.length)
    (short : (token s.operand p c r).2.2.length < (c :: r).length) :
    scan s cs = scan { s with pos := p } (c :: r) := by
  have here : skipGap .space p (c :: r) = (p, c :: r) := skipGap_visible visible slash p r
  rw [scan, scan, outside, if_neg (by decide), if_neg (by decide), skipped, here]
  simp only [if_pos short, if_pos (Nat.lt_of_lt_of_le short long)]
  rfl

end Script.Lexer

namespace Emitter

/-- Behind the opening comment with the path in it, the script goes on at the place `pos`. -/
def OpensAt (path : Path) (pos : Pos) : Prop :=
  ∀ rest, skipGap .space Pos.start
    (("// emitter program for " ++ path.text).toList ++ '\n' :: rest) = skipGap .space pos rest

/-- The opening comment is one line, unless the path has a line break in it. -/
theorem opensAt_second_line {path : Path} (h : ∀ c ∈ path.text.toList, c ≠ '\n' ∧ c ≠ '\r') :
    OpensAt path ⟨2, 1⟩ := by
  intro rest
  have comment : ("// emitter program for " ++ path.text).toList ++ '\n' :: rest =
      '/' :: '/' :: ((" emitter program for ".toList ++ path.text.toList) ++ '\n' :: rest) := by
    simp
  have fixed : ∀ c ∈ " emitter program for ".toList, c ≠ '\n' ∧ c ≠ '\r' := by simp
  have one_line : ∀ c ∈ " emitter program for ".toList ++ path.text.toList, c ≠ '\n' ∧ c ≠ '\r' :=
    fun c hc => (List.mem_append.1 hc).elim (fixed c) (h c)
  rw [comment, Lexer.skipGap_slashes, Lexer.skipGap_line_eq one_line]
  rfl

/-- The first word behind the opening comment. -/
theorem token_let (operand : Bool) (p : Pos) (rest : List Char) :
    (Lexer.token operand p 'l' ("et code = \"\";".toList ++ rest)).2.2 =
      " code = \"\";".toList ++ rest := by
  simp [Lexer.token, isNameStart, isNamePart, List.takeWhile, List.dropWhile]

theorem scan_opened {path : Path} {pos : Pos} (opens : OpensAt path pos) (rest : List Char) :
    scan ⟨Pos.start, false, [], false⟩ (("// emitter program for " ++ path.text).toList ++
        '\n' :: ("let code = \"\";".toList ++ rest)) =
      scan ⟨pos, false, [], false⟩ ("let code = \"\";".toList ++ rest) := by
  have first : "let code = \"\";".toList = 'l' :: "et code = \"\";".toList := by decide
  have skipped := opens ('l' :: ("et code = \"\";".toList ++ rest))
  rw [skipGap_visible (by decide) (by decide)] at skipped
  rw [first, List.cons_append]
  refine Lexer.scan_of_skipGap rfl (by decide) (by decide) skipped ?_ ?_
  · simp
    omega
  · rw [token_let]
    simp

end Emitter

/-! ## Faults without their places -/

namespace Fault

/-- A fault without the places and the texts of documents that it tells about. -/
def unlocated : Fault → Fault
  | .missingDocument _ => .missingDocument ⟨""⟩
  | .invalidInclude _ _ => .invalidInclude ⟨""⟩ ""
  | .syntaxError message _ _ => .syntaxError message "" ""
  | .evaluation _ => .evaluation ""
  | fault => fault

end Fault

namespace Emission

/-- The outcome of a run, without the places and texts of documents in its fault. -/
def unlocated (outcome : Except Fault Emission × Spec) : Except Fault Emission × Spec :=
  (outcome.1.mapError Fault.unlocated, outcome.2)

/-- With one program, two emitters come to outcomes that differ at most in the place of a fault. -/
theorem recover_unlocated (e f : Emitter) (program : Program) (options : Options)
    (missing : List String) (attempts : Nat) (r : Resolver) :
    unlocated (recover e program options missing attempts r) =
      unlocated (recover f program options missing attempts r) := by
  induction missing, attempts, r using recover.induct program options with
  | case1 missing attempts r result r' run found =>
    rw [recover, recover, run]
    simp only [found]
    cases result <;> rfl
  | case2 missing attempts r r' name more run found =>
    rw [recover, recover, run]
    simp only [found]
  | case3 missing attempts r result r' run name more found beyond ended =>
    rw [recover, recover, run]
    simp only [found, if_pos beyond]
  | case4 missing attempts r result r' run state name more found again few ended ih =>
    rw [recover, recover, run]
    simp only [found, if_neg few]
    exact ih

end Emission

namespace Emitter

open Emission (unlocated)

theorem run_unlocated {e f : Emitter} (same : tokens e.source = tokens f.source)
    (options : Emission.Options) (spec : Spec) :
    unlocated (e.run options spec) = unlocated (f.run options spec) := by
  have parsed : parse e.source = parse f.source := by
    simp only [parse, Parser.run, same]
  cases read : parse f.source with
  | error fault =>
    have failed (g : Emitter) (h : parse g.source = .error fault) :
        unlocated (g.run options spec) = (.error (.syntaxError fault.reason "" ""), spec) := by
      have program : g.program = .error (g.syntaxFault fault.reason (some fault.pos.line)) := by
        rw [program, h]
      rw [run, program, syntaxFault]
      dsimp only
      split <;> rfl
    rw [failed e (parsed.trans read), failed f read]
  | ok script =>
    have ran (g : Emitter) (h : parse g.source = .ok script) :
        g.run options spec = Emission.recover g script.simplify options [] 0
          (Resolver.start spec options.deferred) := by
      rw [run, program, h]
    rw [ran e (parsed.trans read), ran f read]
    exact Emission.recover_unlocated e f _ _ _ _ _

/-! ## Sources at two paths -/

theorem tokens_of_opensAt {e : Emitter} {path : Path} {pos : Pos} {codes : List String}
    (opens : OpensAt path pos)
    (lines : e.lines.map (·.code) =
      ("// emitter program for " ++ path.text) :: "let code = \"\";" :: codes) :
    tokens e.source =
      scan ⟨pos, false, [], false⟩ ("\n".intercalate ("let code = \"\";" :: codes)).toList := by
  obtain ⟨rest, behind⟩ : ∃ rest, ("\n".intercalate ("let code = \"\";" :: codes)).toList =
      "let code = \"\";".toList ++ rest := by
    cases codes with
    | nil => exact ⟨[], by simp⟩
    | cons code more => exact ⟨'\n' :: ("\n".intercalate (code :: more)).toList, by simp⟩
  have whole : e.source.toList = ("// emitter program for " ++ path.text).toList ++
      '\n' :: ("let code = \"\";".toList ++ rest) := by
    rw [source, lines, String.intercalate_cons_cons, ← behind]
    simp
  rw [tokens, whole, scan_opened opens, behind]

variable {text : String}

theorem contents_lines (p q : Path) (text : String) :
    SourceLine.contents (Document.lines ⟨p, text⟩ ++ [closing ⟨p, text⟩]) =
      SourceLine.contents (Document.lines ⟨q, text⟩ ++ [closing ⟨q, text⟩]) := by
  obtain ⟨front, last, split, -⟩ := Document.exists_last_piece text.toList
  have last_line : SourceLine.contents [closing ⟨p, text⟩] =
      SourceLine.contents [closing ⟨q, text⟩] :=
    SourceLine.contents_singleton_eq rfl
  simp only [SourceLine.contents_append, last_line, Document.lines, split,
    Document.contents_number]

/-- The path of a document without includes stands in the code of its emitter in one place. -/
theorem compile_codes (tree : FileTree) (spec : Spec) (prelude : Option Prelude) (embed : Bool)
    (kept : ∀ piece ∈ Document.pieces text.toList,
      (Line.classify (String.ofList piece)).isInclude = false) :
    ∃ codes, ∀ path : Path, ∃ e, compile tree spec prelude embed ⟨path, text⟩ = .ok e ∧
      e.lines.map (·.code) =
        ("// emitter program for " ++ path.text) :: "let code = \"\";" :: codes := by
  refine ⟨((opening ⟨⟨""⟩, text⟩ prelude embed).map (·.code)).drop 2 ++
    bodyCodes [] (SourceLine.contents (Document.lines ⟨⟨""⟩, text⟩ ++ [closing ⟨⟨""⟩, text⟩])) ++
    (ending embed).map (·.code), fun path => ?_⟩
  have plain : ∀ line ∈ Document.lines ⟨path, text⟩,
      (Line.classify line.text).isInclude = false := by
    intro line hl
    obtain ⟨piece, hp, eq⟩ := Document.text_mem_of_mem_number hl
    rw [eq]
    exact kept piece hp
  have kinds : ∀ entry ∈ (Document.lines ⟨path, text⟩ ++ [closing ⟨path, text⟩]).map
      (fun line => (line, Line.classify line.text)), entry.2 = Line.classify entry.1.text := by
    rw [List.forall_mem_map]
    exact fun line _ => rfl
  refine ⟨_, compile_of_kept plain, ?_⟩
  rw [List.map_append, List.map_append, body_codes [] kinds, List.map_map, List.map_nil,
    ← contents_lines path ⟨""⟩]
  have texts : Prod.fst ∘ (fun line : SourceLine => (line, Line.classify line.text)) = id := rfl
  rw [texts, List.map_id]
  rfl

/--
A document without includes runs at two paths to the same text, with the same names missed, or it
fails at both in the same way, if the opening comments with the paths in them end at one place of the
script.
-/
theorem run_relocated {p q : Path} {pos : Pos} (tree : FileTree) (spec : Spec)
    (prelude : Option Prelude) (embed : Bool) (options : Emission.Options)
    (kept : ∀ piece ∈ Document.pieces text.toList,
      (Line.classify (String.ofList piece)).isInclude = false)
    (opens : OpensAt p pos) (opens' : OpensAt q pos) :
    ∃ e f, compile tree spec prelude embed ⟨p, text⟩ = .ok e ∧
      compile tree spec prelude embed ⟨q, text⟩ = .ok f ∧
      unlocated (e.run options spec) = unlocated (f.run options spec) := by
  obtain ⟨codes, compiled⟩ := compile_codes tree spec prelude embed kept
  obtain ⟨e, compiled_p, lines_p⟩ := compiled p
  obtain ⟨f, compiled_q, lines_q⟩ := compiled q
  have same : tokens e.source = tokens f.source :=
    (tokens_of_opensAt opens lines_p).trans (tokens_of_opensAt opens' lines_q).symm
  exact ⟨e, f, compiled_p, compiled_q, run_unlocated same options spec⟩

theorem run_relocated_of_pages :
    (∀ piece ∈ Document.pieces "//! let n = 2;\n$\x7bn * m\x7d".toList,
      (Line.classify (String.ofList piece)).isInclude = false) ∧
    OpensAt ⟨"page"⟩ ⟨2, 1⟩ ∧ OpensAt ⟨"other pages/page #2"⟩ ⟨2, 1⟩ ∧
    ∃ e f, compile ⟨[], []⟩ ⟨[("m", .integer 3)]⟩ none false
        ⟨⟨"page"⟩, "//! let n = 2;\n$\x7bn * m\x7d"⟩ = .ok e ∧
      compile ⟨[], []⟩ ⟨[("m", .integer 3)]⟩ none false
        ⟨⟨"other pages/page #2"⟩, "//! let n = 2;\n$\x7bn * m\x7d"⟩ = .ok f ∧
      unlocated (e.run ⟨100, false, 0⟩ ⟨[("m", .integer 3)]⟩) =
        unlocated (f.run ⟨100, false, 0⟩ ⟨[("m", .integer 3)]⟩) := by
  have kept : ∀ piece ∈ Document.pieces "//! let n = 2;\n$\x7bn * m\x7d".toList,
      (Line.classify (String.ofList piece)).isInclude = false := by
    decide +kernel
  have opens : OpensAt ⟨"page"⟩ ⟨2, 1⟩ := opensAt_second_line (by simp)
  have opens' : OpensAt ⟨"other pages/page #2"⟩ ⟨2, 1⟩ := opensAt_second_line (by simp)
  exact ⟨kept, opens, opens', run_relocated _ _ _ _ _ kept opens opens'⟩

/-- A newline in the path ends the opening comment, and what follows it is a part of the script. -/
theorem run_relocated_of_newline :
    (∀ piece ∈ Document.pieces "$\x7bx\x7d".toList,
      (Line.classify (String.ofList piece)).isInclude = false) ∧
    ∃ e f, compile ⟨[], []⟩ ⟨[("x", .integer 2)]⟩ none false
        ⟨⟨"a\nlet x = 1;"⟩, "$\x7bx\x7d"⟩ = .ok e ∧
      compile ⟨[], []⟩ ⟨[("x", .integer 2)]⟩ none false ⟨⟨"a"⟩, "$\x7bx\x7d"⟩ = .ok f ∧
      (e.run ⟨100, false, 0⟩ ⟨[("x", .integer 2)]⟩).1.toOption = some ⟨"1", [], 1⟩ ∧
      (f.run ⟨100, false, 0⟩ ⟨[("x", .integer 2)]⟩).1.toOption = some ⟨"2", [], 1⟩ := by
  have kept : ∀ piece ∈ Document.pieces "$\x7bx\x7d".toList,
      (Line.classify (String.ofList piece)).isInclude = false := by
    decide +kernel
  have plain (path : Path) : ∀ line ∈ Document.lines ⟨path, "$\x7bx\x7d"⟩,
      (Line.classify line.text).isInclude = false := by
    intro line hl
    obtain ⟨piece, hp, eq⟩ := Document.text_mem_of_mem_number hl
    exact eq ▸ kept piece hp
  refine ⟨kept, _, _, compile_of_kept (plain _), compile_of_kept (plain _), ?_, ?_⟩
  · rw [run, program, parse, Parser.run, tokens_source]
    decide +kernel
  · rw [run, program, parse, Parser.run, tokens_source]
    decide +kernel

end Emitter

end Stencil
