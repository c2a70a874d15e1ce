import Stencil.Proofs.Throwing
import Stencil.Proofs.Script.Newlines

/-!
# Where faults are located

The engine tells the line of the script in which a fault came up.  Each line of the script knows the
line of the document that it comes from, so that the fault is told with the file and the line of its
author.
-/

namespace Stencil

open Script
open Script.Lexer (Lexes LexesFrom LexesLines IsPaired scan)

/-! ## Newlines of a script -/

namespace Script.Lexer

theorem isPaired_lines {lines : List String} {last : List Char}
    (paired : ∀ line ∈ lines, IsPaired (line.toList ++ ['\n'])) (h : IsPaired last) :
    IsPaired ((lines.flatMap fun line => line.toList ++ ['\n']) ++ last) := by
  induction lines with
  | nil => exact h
  | cons line more ih =>
    have behind := ih fun other ho => paired other (List.mem_cons_of_mem _ ho)
    simpa using (paired line List.mem_cons_self).append behind

theorem isPaired_append_of_not_mem {cs more : List Char} (free : '\r' ∉ cs) (h : IsPaired more) :
    IsPaired (cs ++ more) := by
  induction cs with
  | nil => exact h
  | cons c r ih =>
    rw [List.mem_cons, not_or] at free
    exact ⟨fun eq => absurd eq.symm free.1, ih free.2⟩

theorem count_newline_lines {lines : List String} (one : ∀ line ∈ lines, OneLine line) :
    (lines.flatMap fun line => line.toList ++ ['\n']).count '\n' = lines.length := by
  induction lines with
  | nil => rfl
  | cons line more ih =>
    have here : line.toList.count '\n' = 0 := List.count_eq_zero.2 (one line List.mem_cons_self)
    rw [List.flatMap_cons, List.count_append, List.count_append, here,
      ih fun other ho => one other (List.mem_cons_of_mem _ ho), List.length_cons]
    simp
    omega

theorem token_throw (operand : Bool) (p : Pos) (rest : List Char) :
    ∃ q, token operand p 't' ("hrow".toList ++ ' ' :: rest) = (⟨.word "throw", p⟩, q, ' ' :: rest) := by
  refine ⟨advance p ("throw".toList ++ ' ' :: rest) (' ' :: rest), ?_⟩
  simp [token, isNameStart, isNamePart, List.takeWhile, List.dropWhile]
  decide

end Script.Lexer

/-! ## Carriage returns in encodings -/

namespace Append

theorem carriage_not_mem_script {a : Append}
    (h : ∀ expr, a = .guarded expr → '\r' ∉ expr.toList) : '\r' ∉ a.script.toList := by
  have append {s t : String} (hs : '\r' ∉ s.toList) (ht : '\r' ∉ t.toList) :
      '\r' ∉ (s ++ t).toList := by
    rw [String.toList_append, List.mem_append, not_or]
    exact ⟨hs, ht⟩
  have literal (text : String) : '\r' ∉ (Text.literal text).toList :=
    Text.not_mem_literal (.inr rfl) text
  cases a with
  | literal text => exact append (append (by decide) (literal text)) (by decide)
  | guarded expr =>
    exact append (append (append (append (by decide) (h expr rfl)) (by decide)) (literal _))
      (by decide)

end Append

namespace Encoding

theorem carriage_not_mem_script {deferred terminated : Bool} {line : String}
    (h : ∀ expr ∈ (segments line).filterMap Segment.expr?, '\r' ∉ expr.toList) :
    '\r' ∉ (script deferred line terminated).toList := by
  have row {parts : List String} (h : ∀ part ∈ parts, '\r' ∉ part.toList) :
      '\r' ∉ (String.intercalate " " parts).toList := by
    induction parts with
    | nil => simp
    | cons part rest ih =>
      have behind := ih fun other ho => h other (List.mem_cons_of_mem _ ho)
      cases rest with
      | nil => simpa using h part List.mem_cons_self
      | cons next more =>
        rw [String.intercalate_cons_cons]
        simp only [String.toList_append, List.mem_append, not_or]
        exact ⟨⟨h part List.mem_cons_self, by decide⟩, behind⟩
  refine row fun part hp => ?_
  obtain ⟨a, ha, rfl⟩ := List.mem_map.1 hp
  refine Append.carriage_not_mem_script fun expr eq => ?_
  subst eq
  exact h expr (mem_exprs_of_mem_statements ha)

end Encoding

namespace Emitter

theorem isPaired_block {run : List SourceLine}
    (h : ∀ line ∈ run, ∀ expr ∈ (segments line.text).filterMap Segment.expr?, '\r' ∉ expr.toList) :
    ∀ code ∈ (block run).map (·.code), IsPaired (code.toList ++ ['\n']) := by
  have free {code : String} (h : '\r' ∉ code.toList) : IsPaired (code.toList ++ ['\n']) :=
    Lexer.isPaired_of_not_mem (by simpa using h)
  have encoding (deferred : Bool) : ∀ line ∈ encoded deferred run,
      IsPaired (line.code.toList ++ ['\n']) := by
    intro line hl
    obtain ⟨source, hs, rfl⟩ := List.mem_map.1 hl
    exact free (Encoding.carriage_not_mem_script (h source hs))
  rw [List.forall_mem_map]
  intro line hl
  unfold block at hl
  split at hl
  · simp at hl
  · simp only [List.mem_append, List.mem_cons, List.not_mem_nil, or_false] at hl
    rcases hl with ((rfl | hl) | rfl | hl) | rfl
    · decide
    · exact encoding true line hl
    · decide
    · exact encoding false line hl
    · decide

/-! ## The place of a fault -/

variable {path : Path} {pos : Pos} {front behind : List String} {code : String} {ts us : List Token}

/--
Where the code of an emitter is that of two rows of lines and a fault between them, the fault is
located as many lines behind the opening comment as there are lines in front of it.
-/
theorem exists_thrown {e : Emitter} (opens : OpensAt path pos)
    (lines : e.lines.map (·.code) = ("// emitter program for " ++ path.text) ::
      "let code = \"\";" :: (front ++ code :: behind ++ ["code"]))
    (one : ∀ line ∈ front, OneLine line)
    (paired : ∀ line ∈ front ++ code :: behind, IsPaired (line.toList ++ ['\n']))
    (starts : "throw ".toList <+: code.toList)
    (read : LexesLines front ts) (read' : LexesLines (code :: behind) (.word "throw" :: us)) :
    ∃ placed q others,
      tokens e.source = placed ++ ⟨.word "throw", q⟩ :: others ∧
      placed.map (·.token) =
        [.word "let", .name "code", .sign "=", .text "", .sign ";"] ++ ts ∧
      others.map (·.token) = us ++ [.name "code", .ended] ∧
      q.line = pos.line + (front.length + 1) := by
  obtain ⟨rest, starts⟩ := starts
  let joined (lines : List String) : List Char := lines.flatMap fun line => line.toList ++ ['\n']
  let more : List Char := "hrow".toList ++ ' ' :: (rest ++ '\n' :: (joined behind ++ "code".toList))
  let start : Lexer.State := ⟨pos, false, [], false⟩
  have outside : Lexer.Outside start := ⟨rfl, rfl⟩
  have name : Lexer.IsVariable "code" := by decide
  have whole : "let code = \"\";" :: (front ++ code :: behind ++ ["code"]) =
      (("let code = \"\";" :: front) ++ code :: behind) ++ ["code"] := by simp
  have here : joined (code :: behind) ++ "code".toList = 't' :: more := by
    simp [joined, more, ← starts]
  have chars : ("\n".intercalate
      ("let code = \"\";" :: (front ++ code :: behind ++ ["code"]))).toList =
      joined ("let code = \"\";" :: front) ++ 't' :: more := by
    rw [whole, toList_intercalate_newline, List.flatMap_append, ← here, ← List.append_assoc]
  have declared := LexesLines.cons (fun _ => lexes_declaration) read
  have last : Lexes "code".toList [.name "code"] [] :=
    Lexer.Lexes.variable_name (by decide) (by simp [Lexer.Lexes.EndsWord])
  have row : (scan start (joined ("let code = \"\";" :: front) ++ 't' :: more)).map (·.token) =
      (([.word "let", .name "code", .sign "=", .text "", .sign ";"] ++ ts) ++
        .word "throw" :: us) ++ [.name "code", .ended] := by
    have read_whole := ((declared.append read') ("code".toList ++ [])).append last
    have row := Lexer.scan_of_lexes outside (read_whole start.operand)
    rw [List.flatMap_append, List.append_assoc] at row
    rw [← here]
    exact row.trans (by simp)
  have paired_whole : IsPaired (joined ("let code = \"\";" :: front) ++ 't' :: more) := by
    have all : ∀ line ∈ ("let code = \"\";" :: front) ++ code :: behind,
        IsPaired (line.toList ++ ['\n']) := by
      rw [List.cons_append, List.forall_mem_cons]
      exact ⟨by decide, paired⟩
    have lines := @Lexer.isPaired_lines _ "code".toList all (by decide)
    rwa [List.flatMap_append, List.append_assoc, here] at lines
  have short (operand : Bool) (p : Pos) :
      (Lexer.token operand p 't' more).2.2.length < ('t' :: more).length := by
    obtain ⟨q, taken⟩ := Lexer.token_throw operand p (rest ++ '\n' :: (joined behind ++ "code".toList))
    rw [taken]
    simp [more]
  obtain ⟨placed, operand, q, eq, row_front, line⟩ := Lexer.exists_place outside paired_whole
    (declared _ start.operand) (by decide) (by decide) short row (by simp)
  -- The fault is the first token behind the lines in front of it.
  obtain ⟨others, first⟩ : ∃ others,
      scan ⟨q, operand, [], false⟩ ('t' :: more) = ⟨.word "throw", q⟩ :: others := by
    obtain ⟨p, taken⟩ := Lexer.token_throw operand q (rest ++ '\n' :: (joined behind ++ "code".toList))
    have visible : Lexer.skipGap .space q ('t' :: more) = (q, 't' :: more) :=
      Lexer.skipGap_visible (by decide) (by decide) q more
    rcases Lexer.scan_visible (s := ⟨q, operand, [], false⟩) rfl visible taken with eq | eq
    · exact ⟨[], eq⟩
    · exact ⟨_, eq⟩
  rw [first] at eq
  have row_others : others.map (·.token) = us ++ [.name "code", .ended] := by
    rw [eq, List.map_append, row_front, List.append_assoc _ _ [_, _]] at row
    simpa using List.append_cancel_left row
  refine ⟨placed, q, others, ?_, row_front, row_others, ?_⟩
  · rw [tokens_of_opensAt opens lines, chars, eq]
  · have one_front : ∀ line ∈ "let code = \"\";" :: front, OneLine line := by
      rw [List.forall_mem_cons]
      exact ⟨by decide, one⟩
    have count : (joined ("let code = \"\";" :: front)).count '\n' = front.length + 1 :=
      Lexer.count_newline_lines one_front
    rw [line, count]

/-! ## Faults that are thrown -/

/-- The code of a directive that throws a text. -/
def throwing (text margin : String) : String := "throw \"" ++ text ++ "\";" ++ margin

/-- A text that stands for itself between double quotes. -/
def IsVerbatim (text : String) : Prop :=
  ∀ c ∈ text.toList, c ≠ '"' ∧ c ≠ '\\' ∧ Text.isControl c = false

instance (text : String) : Decidable (IsVerbatim text) :=
  List.decidableBAll _ _

theorem literal_of_isVerbatim {text : String} (h : IsVerbatim text) :
    Text.literal text = "\"" ++ text ++ "\"" := by
  have chars (cs : List Char) (h : ∀ c ∈ cs, c ≠ '"' ∧ c ≠ '\\' ∧ Text.isControl c = false) :
      cs.flatMap Text.literalChar = cs := by
    induction cs with
    | nil => rfl
    | cons c r ih =>
      obtain ⟨quote, backslash, plain⟩ := h c List.mem_cons_self
      have ne {d : Char} (hd : Text.isControl d = true) : c ≠ d := by
        rintro rfl
        rw [plain] at hd
        cases hd
      have here : Text.literalChar c = [c] := by
        have newline := ne (show Text.isControl '\n' = true by decide)
        have carriage := ne (show Text.isControl '\r' = true by decide)
        have tab := ne (show Text.isControl '\t' = true by decide)
        simp [Text.literalChar, quote, backslash, plain, newline, carriage, tab]
      rw [List.flatMap_cons, here, ih fun d hd => h d (List.mem_cons_of_mem _ hd)]
      rfl
  rw [Text.literal, Text.literalChars, chars _ h, ← String.toList_inj]
  simp

theorem lexes_throwing {text margin : String} {rest : List Char} (h : IsVerbatim text)
    (blank : margin.toList.all Text.isBlank = true) :
    Lexes (throwing text margin).toList [.word "throw", .text text, .sign ";"] ('\n' :: rest) := by
  have parts : (throwing text margin).toList = "throw".toList ++
      ((' ' :: (Text.literal text).toList) ++ ([';'] ++ margin.toList)) := by
    rw [literal_of_isVerbatim h]
    simp [throwing]
  rw [parts]
  apply Lexes.append (Lexes.keyword (by decide) (Lexes.endsWord_cons (by decide)))
  apply Lexes.append (Lexes.blank (by decide) (Lexes.literal text (by simp)))
  exact Lexes.append Lexes.semicolon (Lexes.gap (Lexer.isGap_blank blank))

theorem isPaired_throwing {text margin : String} (h : IsVerbatim text)
    (paired : IsPaired (margin.toList ++ ['\n'])) :
    IsPaired ((throwing text margin).toList ++ ['\n']) := by
  have free : '\r' ∉ ("throw \"" ++ text ++ "\";").toList := by
    have inside : '\r' ∉ text.toList := fun mem => absurd (h _ mem).2.2 (by decide)
    simp [inside]
  rw [throwing, String.toList_append, List.append_assoc]
  exact Lexer.isPaired_append_of_not_mem free paired

/-- Lines that define functions and nothing else, and that end no line by a carriage return. -/
structure IsLibrary (lines : List String) (functions : List Function) : Prop where
  closed : ∃ ts, LexesLines lines ts
  parsed : parse (String.ofList (lines.flatMap fun line => line.toList ++ ['\n'])) =
    .ok ⟨functions, []⟩
  paired : ∀ line ∈ lines, IsPaired (line.toList ++ ['\n'])

theorem isLibrary_nil : IsLibrary [] [] := by
  have told : (parse (String.ofList [])).toOption.map
      (fun program => (program.functions.isEmpty, program.body.isEmpty)) = some (true, true) := by
    decide +kernel
  obtain ⟨⟨functions, body⟩, parsed, told⟩ := Option.map_eq_some_iff.1 told
  simp only [Prod.mk.injEq, List.isEmpty_iff] at told
  obtain ⟨rfl, rfl⟩ := told
  exact ⟨⟨[], LexesLines.nil⟩, Expansion.ok_of_toOption parsed, by simp⟩

theorem renders_of_not_defines {functions fs : List Function} {body : List Stmt}
    (own : ¬Defines functions "_render" 1)
    (defines : ∀ name count, Parser.isClosureName name = false → Defines fs name count →
      Defines functions name count) :
    Eval.Renders (Program.simplify ⟨fs, body⟩).functions := by
  refine List.find?_eq_none.2 fun f member found => own ?_
  obtain ⟨g, hg, rfl⟩ := List.mem_map.1 member
  exact defines "_render" 1 (by decide) ⟨g, hg, by simpa using found⟩

theorem missing_of_known {deferred : Bool} {spec : Spec} {run : List SourceLine}
    (bare : ∀ line ∈ run, Encoding.IsBare line.text)
    (known : ∀ line ∈ run, ∀ name ∈ Encoding.evaluated deferred line.text, spec.has name = true) :
    (Encoding.outline deferred (run.map (·.content))).missing (Emission.names deferred spec) = [] := by
  rw [Encoding.missing_outline, List.filter_eq_nil_iff]
  intro name hn
  obtain ⟨content, hc, evaluated⟩ := List.mem_flatMap.1 hn
  obtain ⟨line, hl, rfl⟩ := List.mem_map.1 hc
  have usable := Encoding.isUsable_of_mem_evaluated (bare line hl) evaluated
  have found := known line hl name evaluated
  rw [Emission.names_of_ne usable.mode]
  rw [Spec.has] at found
  simp [Option.isNone_eq_false_iff.2 found]

section

variable {e : Emitter} {more : List EmitterLine} {shared before after : List SourceLine}
  {line last : SourceLine}
  {functions : List Function} {text margin : String} {options : Emission.Options} {spec : Spec}

/-- An emitter whose script throws behind a block of lines fails, and defines nothing. -/
theorem run_of_parse {fs : List Function} {front rest : List Stmt} {p q w u x : Pos}
    (parsed : parse e.source = .ok ⟨fs, .declare "code" (.const (.string "") p) false w ::
      (front ++ .throw (some (.const (.string text) u)) q :: rest ++ [.expr (.variable "code" x)])⟩)
    (renders : ∀ body, Eval.Renders (Program.simplify ⟨fs, body⟩).functions)
    (shape : Outline.Shape (blockOnto (before.map (·.content)) .done) front)
    (bare : ∀ other ∈ before, Encoding.IsBare other.text)
    (known : ∀ other ∈ before, ∀ name ∈ Encoding.evaluated options.deferred other.text,
      spec.has name = true) (unbounded : options.maxOperations = 0) :
    e.run options spec =
      (.error (.evaluation (e.describe (.here (.thrown (.string text)) (some q)))), spec) := by
  have bare' : ∀ content ∈ before.map (·.content), Encoding.IsBare content.1 := by
    rw [List.forall_mem_map]
    exact bare
  rw [run, program, parsed]
  obtain ⟨out, scope, r, fills, -, later⟩ := performs_blockOnto shape (renders _) bare'
    (Emission.names_mode options.deferred spec) (missing_of_known bare known) false true
    (Eval.Scope.code "" (by simp)) (Resolver.sound_start spec options.deferred) rfl
  exact Emission.recover_of_fault unbounded rfl (Eval.ends_thrown rest x fills) later

/-- An emitter fails at the fault that it throws, in the line of the script that throws it. -/
theorem run_thrown (opens : OpensAt path pos)
    (lines : e.lines = [plain ("// emitter program for " ++ path.text), plain "let code = \"\";"] ++
      shared.map (fun line => ⟨line.text, some line⟩) ++ block before ++
      ⟨throwing text margin, some line⟩ :: (block after ++ [⟨"", some last⟩, plain "code"]))
    (one : ∀ other ∈ shared ++ before, OneLine other.text) (library : IsLibrary (shared.map (·.text)) functions)
    (own : ¬Defines functions "_render" 1)
    (bare : ∀ other ∈ before ++ after, Encoding.IsBare other.text)
    (tight : ∀ other ∈ before ++ after, ∀ expr ∈ (segments other.text).filterMap Segment.expr?,
      '\r' ∉ expr.toList)
    (known : ∀ other ∈ before, ∀ name ∈ Encoding.evaluated options.deferred other.text,
      spec.has name = true)
    (verbatim : IsVerbatim text) (blank : margin.toList.all Text.isBlank = true)
    (paired : IsPaired (margin.toList ++ ['\n'])) (unbounded : options.maxOperations = 0) :
    ∃ q, e.run options spec =
        (.error (.evaluation (e.describe (.here (.thrown (.string text)) (some q)))), spec) ∧
      q.line = pos.line + (shared.length + (block before).length + 1) := by
  rw [List.forall_mem_append] at one bare tight
  obtain ⟨ts, closed⟩ := library.closed
  have read := closed.append (lexesLines_block bare.1)
  have read' := LexesLines.cons (fun _ => lexes_throwing verbatim blank)
    ((lexesLines_block bare.2).append (@LexesLines.line [] "" fun _ => Lexes.nil))
  rw [List.append_nil] at read'
  have one_front : ∀ code ∈ shared.map (·.text) ++ (block before).map (·.code), OneLine code := by
    rw [List.forall_mem_append, List.forall_mem_map, List.forall_mem_map]
    exact ⟨one.1, fun code hc => oneLine_of_mem_block one.2 hc⟩
  have paired_lines : ∀ code ∈ (shared.map (·.text) ++ (block before).map (·.code)) ++
      throwing text margin :: ((block after).map (·.code) ++ [""]),
      IsPaired (code.toList ++ ['\n']) := by
    simp only [List.forall_mem_append, List.forall_mem_cons]
    exact ⟨⟨library.paired, isPaired_block tight.1⟩, isPaired_throwing verbatim paired,
      isPaired_block tight.2, by decide⟩
  have codes : e.lines.map (·.code) = ("// emitter program for " ++ path.text) ::
      "let code = \"\";" :: ((shared.map (·.text) ++ (block before).map (·.code)) ++
        throwing text margin :: ((block after).map (·.code) ++ [""]) ++ ["code"]) := by
    rw [lines]
    simp [plain]
  obtain ⟨placed, q, others, split, row, row_others, at_line⟩ :=
    exists_thrown opens codes one_front paired_lines (by simp [throwing]) read read'
  obtain ⟨declared, rest, rfl, row_declared, row_rest⟩ := List.map_eq_append_iff.1 row
  obtain ⟨defined, blocks, rfl, row_defined, row_blocks⟩ := List.map_eq_append_iff.1 row_rest
  rw [List.append_assoc, List.append_assoc] at split
  have alone : (tokens (String.ofList ((shared.map (·.text)).flatMap
      fun line => line.toList ++ ['\n']))).map (·.token) = ts ++ [.ended] :=
    Lexer.tokens_of_lexes (by rw [String.toList_ofList]; exact closed [] false)
  obtain ⟨fs, front, rest, p, w, u, x, parsed, shape, defines⟩ := Parser.parse_thrown split
    row_declared alone library.parsed row_defined row_blocks row_others
  refine ⟨q, run_of_parse parsed (fun body => renders_of_not_defines own defines) shape bare.1 known
    unbounded, ?_⟩
  rw [at_line, List.length_append, List.length_map, List.length_map]

theorem describe_here {trouble : Trouble} {q : Pos} {line : SourceLine}
    (place : e.origin? q.line = some line) :
    e.describe (.here trouble (some q)) = (Failure.here trouble (some q)).message ++ " (" ++
      line.location ++ ": `" ++ Text.trim line.text ++ "`)" := by
  have found : (Failure.here trouble (some q)).pos?.bind (fun p => e.origin? p.line) = some line :=
    place
  rw [describe, found]

/-- The line of a fault is that of its directive where the opening comment is one line. -/
theorem origin?_thrown {number : Nat}
    (lines : e.lines = [plain ("// emitter program for " ++ path.text), plain "let code = \"\";"] ++
      shared.map (fun line => ⟨line.text, some line⟩) ++ block before ++
      ⟨code, some line⟩ :: more)
    (h : number = 2 + (shared.length + (block before).length + 1)) :
    e.origin? number = some line := by
  have index : number - 1 =
      ([plain ("// emitter program for " ++ path.text), plain "let code = \"\";"] ++
        shared.map (fun line => EmitterLine.mk line.text (some line)) ++ block before).length := by
    simp only [h, List.length_append, List.length_map, List.length_cons, List.length_nil]
    omega
  have some_number : number ≠ 0 := by omega
  rw [origin?, if_neg (by simpa using some_number), lines, index,
    List.getElem?_append_right (Nat.le_refl _), Nat.sub_self]
  rfl

end

end Emitter

/-! ## Lines of documents -/

namespace SourceLine

/-- The line stands in the document, at its number, which counts from one. -/
structure StandsIn (line : SourceLine) (document : Document) : Prop where
  origin : line.origin = document.path
  counted : 0 < line.number
  text : (Document.pieces document.text.toList)[line.number - 1]? = some line.text.toList

theorem standsIn_of_mem_number {path : Path} {n : Nat} {ps : List (List Char)} {line : SourceLine}
    (h : line ∈ Document.number path n ps) :
    line.origin = path ∧ n ≤ line.number ∧ ps[line.number - n]? = some line.text.toList := by
  induction n, ps using Document.number.induct with
  | case1 n => simp [Document.number] at h
  | case2 n piece =>
    simp only [Document.number, List.mem_singleton] at h
    subst h
    simp
  | case3 n piece rest more ih =>
    rw [Document.number] at h
    · rcases List.mem_cons.1 h with rfl | h
      · simp
      · obtain ⟨origin, later, text⟩ := ih h
        have index : line.number - n = line.number - (n + 1) + 1 := by omega
        exact ⟨origin, by omega, by rw [index, List.getElem?_cons_succ, text]⟩
    · exact more

theorem standsIn_of_mem_lines {document : Document} {line : SourceLine} (h : line ∈ document.lines) :
    line.StandsIn document := by
  obtain ⟨origin, counted, text⟩ := standsIn_of_mem_number h
  exact ⟨origin, counted, text⟩

theorem standsIn_of_mem_splice {document : Document} {terminated : Bool} {line : SourceLine}
    (h : line ∈ document.splice terminated) : line.StandsIn document := by
  have kept {lines : List SourceLine} (h : line ∈ Document.closeLast terminated lines) :
      ∃ other ∈ lines, line = { other with terminated := line.terminated } := by
    induction lines using Document.closeLast.induct with
    | case1 => simp [Document.closeLast] at h
    | case2 last empty => simp [Document.closeLast, empty] at h
    | case3 last filled =>
      simp only [Document.closeLast, filled, if_false, List.mem_singleton] at h
      exact ⟨last, by simp, by rw [h]⟩
    | case4 first rest more ih =>
      rw [Document.closeLast] at h
      · rcases List.mem_cons.1 h with rfl | h
        · exact ⟨line, by simp, rfl⟩
        · obtain ⟨other, ho, eq⟩ := ih h
          exact ⟨other, by simp [ho], eq⟩
      · exact more
  obtain ⟨other, ho, eq⟩ := kept h
  obtain ⟨origin, counted, text⟩ := standsIn_of_mem_lines ho
  rw [eq]
  exact ⟨origin, counted, text⟩

end SourceLine

/--
The documents that includes lead to from a document: itself, and those that the directives in them
name, at the paths that are joined for these.
-/
inductive Document.Reaches (tree : FileTree) (spec : Spec) (document : Document) : Document → Prop
  | root : Reaches tree spec document document
  | include {here there : Document} {piece : List Char} {expr relative : String}
      (reached : Reaches tree spec document here) (written : piece ∈ pieces here.text.toList)
      (kind : Line.classify (String.ofList piece) = .include expr)
      (named : Inclusion.target spec expr = .ok relative)
      (read : Document.read tree (here.path.directory.join relative) = .ok there) :
      Reaches tree spec document there

/-- Every line of an expansion stands in a document that includes lead to. -/
theorem Expansion.exists_standsIn {tree : FileTree} {spec : Spec} {document : Document}
    {included : List Path} {e : Expansion}
    (h : ofLines tree spec included document.lines = .ok e) :
    ∀ entry ∈ e.lines, ∃ d, document.Reaches tree spec d ∧ entry.1.StandsIn d := by
  intro entry he
  refine (forall_of_ofLines_of_spliced (P := fun line => ∃ d, document.Reaches tree spec d ∧
    line.StandsIn d) ?_ (fun line hl => ⟨document, .root, SourceLine.standsIn_of_mem_lines hl⟩) h
    entry he).1
  rintro included line expr file lines ⟨d, reached, stands⟩ kind resolved other ho
  obtain ⟨relative, target, named, -, read, rfl⟩ := Inclusion.target_of_resolve_spliced resolved
  rw [stands.origin] at read
  have written : line.text.toList ∈ Document.pieces d.text.toList :=
    List.mem_of_getElem? stands.text
  exact ⟨target, .include reached written (by rw [String.ofList_toList, kind]) named read,
    SourceLine.standsIn_of_mem_splice ho⟩

namespace Emitter

/-! ## Documents -/

variable {tree : FileTree} {spec : Spec} {document : Document} {prelude : Option Prelude}
  {e : Expansion} {before after : List SourceLine} {line : SourceLine} {code : String}

/-- The emitter of a document with one directive behind its includes. -/
theorem compile_of_directive
    (expanded : Expansion.ofLines tree spec [tree.canonical document.path] document.lines = .ok e)
    (split : e.lines.map (·.1) = before ++ line :: after)
    (content : ∀ other ∈ before ++ after, (Line.classify other.text).isContent = true)
    (directive : (Line.classify line.text).code? = some code) :
    ∃ emitter, compile tree spec prelude false document = .ok emitter ∧
      emitter.lines = [plain ("// emitter program for " ++ document.path.text),
          plain "let code = \"\";"] ++
        (shared prelude).map (fun line => ⟨line.text, some line⟩) ++
        block (before.filter (!isVoid ·)) ++ ⟨code, some line⟩ ::
          (block (after.filter (!isVoid ·)) ++ [⟨"", some (closing document)⟩, plain "code"]) := by
  have kinds := Expansion.forall_of_ofLines (P := fun _ => True) (fun _ _ _ _ => trivial)
    (fun _ _ => trivial) expanded
  have entries : e.lines = (before ++ line :: after).map
      fun line => (line, Line.classify line.text) := by
    rw [← split, List.map_map]
    refine (List.map_id _).symm.trans (List.map_congr_left fun entry he => ?_)
    exact Prod.ext rfl (kinds entry he).2.1
  have closed : (Line.classify (closing document).text).code? = some "" := by
    rw [classify_closing]
    rfl
  have no_code : ∀ other ∈ before ++ after, (Line.classify other.text).code? = none :=
    fun other ho => Line.code?_of_isContent (content other ho)
  rw [List.forall_mem_append] at no_code
  have last : Expansion.ofLines tree spec ([tree.canonical document.path] ++ e.included)
      [closing document] = .ok ⟨[(closing document, Line.classify (closing document).text)], [], []⟩ :=
    Expansion.ofLines_of_kept (by simp [classify_closing, Line.isInclude])
  have whole : Expansion.ofLines tree spec [tree.canonical document.path]
      (document.lines ++ [closing document]) =
      .ok (e.append ⟨[(closing document, Line.classify (closing document).text)], [], []⟩) := by
    rw [Expansion.ofLines_append, expanded]
    simp only [last]
    rfl
  refine ⟨_, by rw [compile_eq_map, whole]; rfl, ?_⟩
  have lines : body [] (e.lines ++ [(closing document, Line.classify (closing document).text)]) =
      block (before.filter (!isVoid ·)) ++ ⟨code, some line⟩ ::
        (block (after.filter (!isVoid ·)) ++ [⟨"", some (closing document)⟩]) := by
    rw [entries, List.map_append, List.map_cons, List.append_assoc, List.cons_append,
      body_content [] _ no_code.1 directive, body_content [] [] no_code.2 closed, body]
    simp
  simp only [Expansion.append, lines]
  cases prelude <;> simp [opening, shared, ending]

end Emitter

end Stencil
