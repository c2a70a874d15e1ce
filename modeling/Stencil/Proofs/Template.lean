import Stencil.Proofs.Program

/-!
# Templates

A template is built from content lines, conditionals and loops.  Printed as a document it is compiled
to an emitter that is read as an outline of the same build, with a block for each run of content
lines, and the emitter runs to what the template means.
-/

namespace Stencil

open Script
open Script.Lexer (IsVariable Lexes LexesLines)

inductive Template where
  | done
  | line (text : String) (rest : Template)
  | choice (condition : String) (yes no rest : Template)
  | each (item subject : String) (body rest : Template)
  deriving DecidableEq, Repr

namespace Template

/-! ## Printing -/

def print : Template → List String
  | .done => []
  | .line text rest => text :: rest.print
  | .choice condition yes no rest =>
    ("//! " ++ ("if " ++ condition ++ " \x7b")) :: (yes.print ++
      "//! \x7d else \x7b" :: (no.print ++ "//! \x7d" :: rest.print))
  | .each item subject body rest =>
    ("//! " ++ ("for " ++ item ++ " in " ++ subject ++ " \x7b")) :: (body.print ++
      "//! \x7d" :: rest.print)

def document (path : Path) (t : Template) : Document :=
  ⟨path, String.join (t.print.map (· ++ "\n"))⟩

def IsPlain : Template → Prop
  | .done => True
  | .line text rest =>
    OneLine text ∧ (Line.classify text).isContent = true ∧ Encoding.IsBare text ∧ rest.IsPlain
  | .choice condition yes no rest => IsUsable condition ∧ yes.IsPlain ∧ no.IsPlain ∧ rest.IsPlain
  | .each item subject body rest =>
    IsUsable item ∧ IsUsable subject ∧ body.IsPlain ∧ rest.IsPlain

/-- How deep the emitter of a template is nested in the eyes of the engine. -/
def levels : Template → Nat
  | .done => 0
  | .line text rest => max (Encoding.levels text) rest.levels
  | .choice _ yes no rest => max (2 + max yes.levels no.levels) rest.levels
  | .each _ _ body rest => max (2 + body.levels) rest.levels

/-! ## Meaning -/

def meaning : Template → Names → String
  | .done, _ => ""
  | .line text rest, names => Encoding.rendered false names.shown text true ++ rest.meaning names
  | .choice condition yes no rest, names =>
    (if names.isTrue condition then yes.meaning names else no.meaning names) ++ rest.meaning names
  | .each item subject body rest, names =>
    String.join ((names.items subject).map fun v => body.meaning (names.shadow item v)) ++
      rest.meaning names

/--
Every name that is read on the way stands for a value: that of a condition for a boolean, and that of
the subject of a loop for an array.
-/
def Fits : Template → Names → Prop
  | .done, _ => True
  | .line text rest, names =>
    (∀ name ∈ Encoding.evaluated false text, (names name).isSome = true) ∧ rest.Fits names
  | .choice condition yes no rest, names =>
    (∃ b, names condition = some (.bool b)) ∧
      (if names.isTrue condition then yes.Fits names else no.Fits names) ∧ rest.Fits names
  | .each item subject body rest, names =>
    (∃ items, names subject = some (.array items)) ∧
      (∀ v ∈ names.items subject, body.Fits (names.shadow item v)) ∧ rest.Fits names

/-! ## Outlines -/

/-- The outline of a template that `run` content lines come before. -/
def outline : Template → List (String × Bool) → Outline
  | .done, run => Emitter.blockOnto run .done
  | .line text rest, run => rest.outline (run ++ [(text, true)])
  | .choice condition yes no rest, run =>
    Emitter.blockOnto run (.branch condition (yes.outline []) (no.outline []) (rest.outline []))
  | .each item subject body rest, run =>
    Emitter.blockOnto run (.each item subject (body.outline []) (rest.outline []))

end Template

/-! ## Directives -/

namespace Line

theorem trimLeft_cons {c : Char} {rest : List Char} (h : Text.isBlank c = false) :
    Text.trimLeft (c :: rest) = c :: rest := by
  simp [Text.trimLeft, h]

theorem trimChars_of_visible {first last : Char} {middle : List Char}
    (hf : Text.isBlank first = false) (hl : Text.isBlank last = false) :
    Text.trimChars (first :: (middle ++ [last])) = first :: (middle ++ [last]) := by
  rw [Text.trimChars, trimLeft_cons hf, Text.trimRight]
  simp [hl]

theorem code?_directive {code : String} {first last : Char} {middle : List Char}
    (chars : code.toList = first :: (middle ++ [last])) (line : OneLine code)
    (hf : Text.isBlank first = false) (hl : Text.isBlank last = false)
    (other : after? "include(".toList code.toList = none) :
    (classify ("//! " ++ code)).code? = some code := by
  have marked : afterMarker? ("//! " ++ code).toList = some code.toList := by
    have slash : Text.isBlank '/' = false := by decide
    have space : Text.isBlank ' ' = true := by decide
    have parts : ("//! " ++ code).toList = '/' :: '/' :: '!' :: ' ' :: code.toList := by
      simp
    rw [parts, afterMarker?, trimLeft_cons slash]
    simp [after?, Text.trimLeft, space, chars, hf]
  have whole : ∀ c ∈ code.toList, (decide (c ≠ '\n')) = true := by
    intro c h
    rw [decide_eq_true_eq]
    rintro rfl
    exact line h
  have taken : (code.toList ++ []).takeWhile (· ≠ '\n') =
      code.toList ++ [].takeWhile (· ≠ '\n') := List.takeWhile_append_of_pos whole
  have dropped : (code.toList ++ []).dropWhile (· ≠ '\n') = [].dropWhile (· ≠ '\n') :=
    List.dropWhile_append_of_pos whole
  rw [List.append_nil] at taken dropped
  have payload : payload? code.toList = some code.toList := by
    rw [payload?, dropped, taken]
    simp
  have target : includeTarget? code.toList = none := by
    change ((after? "include(".toList code.toList).bind _) = none
    rw [other]
    rfl
  have trimmed : Text.trimChars code.toList = code.toList := by
    rw [chars]
    exact trimChars_of_visible hf hl
  rw [classify]
  simp only [marked, payload, target, trimmed, String.ofList_toList]
  rw [chars]
  cases middle <;> simp [code?]

theorem oneLine_of_isVariable {name : String} (h : IsVariable name) : OneLine name := by
  intro hn
  have part := List.all_eq_true.1 h.parts _ hn
  exact absurd part (by decide)

theorem code?_if {name : String} (h : IsVariable name) :
    (classify ("//! " ++ ("if " ++ name ++ " \x7b"))).code? = some ("if " ++ name ++ " \x7b") := by
  have chars : ("if " ++ name ++ " \x7b").toList =
      'i' :: (('f' :: ' ' :: (name.toList ++ [' '])) ++ ['\x7b']) := by
    simp
  have line : OneLine ("if " ++ name ++ " \x7b") :=
    ((show OneLine "if " by decide).append (oneLine_of_isVariable h)).append (by decide)
  apply code?_directive chars line (by decide) (by decide)
  rw [chars]
  rfl

theorem code?_else : (classify "//! \x7d else \x7b").code? = some "\x7d else \x7b" := by
  decide

theorem code?_end : (classify "//! \x7d").code? = some "\x7d" := by
  decide

theorem code?_for {item name : String} (hi : IsVariable item) (h : IsVariable name) :
    (classify ("//! " ++ ("for " ++ item ++ " in " ++ name ++ " \x7b"))).code? =
      some ("for " ++ item ++ " in " ++ name ++ " \x7b") := by
  have chars : ("for " ++ item ++ " in " ++ name ++ " \x7b").toList =
      'f' :: (('o' :: 'r' :: ' ' :: (item.toList ++ ' ' :: 'i' :: 'n' :: ' ' ::
        (name.toList ++ [' ']))) ++ ['\x7b']) := by
    simp
  have line : OneLine ("for " ++ item ++ " in " ++ name ++ " \x7b") :=
    ((((show OneLine "for " by decide).append (oneLine_of_isVariable hi)).append
      (show OneLine " in " by decide)).append (oneLine_of_isVariable h)).append (by decide)
  apply code?_directive chars line (by decide) (by decide)
  rw [chars]
  rfl

end Line

/-! ## Lines of a printed template -/

namespace Document

theorem pieces_join {lines : List String} (h : ∀ line ∈ lines, OneLine line) :
    pieces (String.join (lines.map (· ++ "\n"))).toList = lines.map String.toList ++ [[]] := by
  induction lines with
  | nil => rfl
  | cons line rest ih =>
    have later := ih fun other ho => h other (List.mem_cons_of_mem line ho)
    have parts : (String.join ((line :: rest).map (· ++ "\n"))).toList =
        line.toList ++ '\n' :: (String.join (rest.map (· ++ "\n"))).toList := by
      simp
    rw [parts, pieces_append_newline, pieces_of_newline_not_mem (h line List.mem_cons_self), later]
    rfl

theorem number_closed (path : Path) (n : Nat) (lines : List String) :
    ∃ source, number path n (lines.map String.toList ++ [[]]) =
        source ++ [⟨"", path, n + lines.length, false⟩] ∧
      source.map (·.text) = lines ∧ ∀ line ∈ source, line.terminated = true := by
  induction lines generalizing n with
  | nil => exact ⟨[], rfl, rfl, by simp⟩
  | cons line rest ih =>
    obtain ⟨source, numbered, texts, terminated⟩ := ih (n + 1)
    obtain ⟨next, more, eq⟩ : ∃ next more, rest.map String.toList ++ [[]] = next :: more := by
      cases rest <;> simp
    refine ⟨⟨line, path, n, true⟩ :: source, ?_, by simp [texts], by simpa using terminated⟩
    rw [List.map_cons, List.cons_append, eq, number, ← eq, numbered, String.ofList_toList,
      List.cons_append, List.length_cons, Nat.add_right_comm, Nat.add_assoc]
    simp

/-- Behind lines that all end with a newline there is an empty piece. -/
theorem exists_lines_join {lines : List String} (path : Path) (h : ∀ line ∈ lines, OneLine line) :
    ∃ source last, Document.lines ⟨path, String.join (lines.map (· ++ "\n"))⟩ = source ++ [last] ∧
      Emitter.isVoid last = true ∧ source.map (·.text) = lines ∧
      ∀ line ∈ source, line.terminated = true := by
  obtain ⟨source, numbered, texts, terminated⟩ := number_closed path 1 lines
  have void : Emitter.isVoid ⟨"", path, 1 + lines.length, false⟩ = true := by
    simp [Emitter.isVoid]
  refine ⟨source, _, ?_, void, texts, terminated⟩
  rw [Document.lines, pieces_join h, numbered]

end Document

namespace Template

theorem forall_mem_print {t : Template} (plain : t.IsPlain) {P : String → Prop}
    (content : ∀ text, OneLine text → (Line.classify text).isContent = true → P text)
    (directive : ∀ code, (Line.classify ("//! " ++ code)).code? = some code → P ("//! " ++ code)) :
    ∀ line ∈ t.print, P line := by
  have middle : P "//! \x7d else \x7b" := directive "\x7d else \x7b" Line.code?_else
  have last : P "//! \x7d" := directive "\x7d" Line.code?_end
  induction t with
  | done => simp [print]
  | line text rest ih =>
    obtain ⟨one_line, is_content, -, behind⟩ := plain
    simpa [print, content text one_line is_content] using ih behind
  | choice condition yes no rest ihy ihn ih =>
    obtain ⟨hc, hy, hn, hr⟩ := plain
    have first := directive _ (Line.code?_if hc.toIsVariable)
    simp only [print, List.mem_cons, List.mem_append]
    rintro line (rfl | h | rfl | h | rfl | h)
    · exact first
    · exact ihy hy line h
    · exact middle
    · exact ihn hn line h
    · exact last
    · exact ih hr line h
  | each item subject body rest ihb ih =>
    obtain ⟨hi, hs, hb, hr⟩ := plain
    have first := directive _ (Line.code?_for hi.toIsVariable hs.toIsVariable)
    simp only [print, List.mem_cons, List.mem_append]
    rintro line (rfl | h | rfl | h)
    · exact first
    · exact ihb hb line h
    · exact last
    · exact ih hr line h

theorem oneLine_of_mem_print {t : Template} (plain : t.IsPlain) :
    ∀ line ∈ t.print, OneLine line := by
  apply forall_mem_print plain (P := OneLine)
  · intro text one_line is_content
    exact one_line
  · intro code h
    exact OneLine.append (by decide) (Line.oneLine_code h)

theorem kept_of_mem_print {t : Template} (plain : t.IsPlain) :
    ∀ line ∈ t.print, (Line.classify line).isInclude = false := by
  apply forall_mem_print plain (P := fun line => (Line.classify line).isInclude = false)
  · intro text one_line is_content
    exact Line.isInclude_eq_false_of_isContent is_content
  · intro code h
    exact Line.isInclude_eq_false_of_code? h

theorem exists_lines {t : Template} (plain : t.IsPlain) (path : Path) :
    ∃ source last, (t.document path).lines = source ++ [last] ∧ Emitter.isVoid last = true ∧
      source.map (·.text) = t.print ∧ ∀ line ∈ source, line.terminated = true :=
  Document.exists_lines_join path (oneLine_of_mem_print plain)

/-! ## Compilation -/

def entry (line : SourceLine) : SourceLine × Line := (line, Line.classify line.text)

theorem body_directive {line : SourceLine} {code : String} (run : List SourceLine)
    (more : List (SourceLine × Line)) (h : (Line.classify line.text).code? = some code) :
    Emitter.body run (entry line :: more) =
      Emitter.block run ++ ⟨code, some line⟩ :: Emitter.body [] more := by
  simp [entry, Emitter.body, h]

theorem body_line {line : SourceLine} (run : List SourceLine) (more : List (SourceLine × Line))
    (h : (Line.classify line.text).isContent = true) (terminated : line.terminated = true) :
    Emitter.body run (entry line :: more) = Emitter.body (run ++ [line]) more := by
  have no_code := Line.code?_of_isContent h
  have visible : Emitter.isVoid line = false := by
    simp [Emitter.isVoid, terminated]
  simp [entry, Emitter.body, no_code, visible]

/--
Up to the next directive, an emitter follows a template as its outline does; `run` is the content
gathered in front of the template.
-/
def IsFollowed (t : Template) : Prop :=
  ∀ (source run : List SourceLine) (last : SourceLine) (code : String)
    (more : List (SourceLine × Line)), source.map (·.text) = t.print →
    (∀ line ∈ source, line.terminated = true) → (∀ line ∈ run, Encoding.IsBare line.text) →
    (Line.classify last.text).code? = some code →
    ∃ lines, Emitter.body run (source.map entry ++ entry last :: more) =
        lines ++ ⟨code, some last⟩ :: Emitter.body [] more ∧
      LexesLines (lines.map (·.code)) (t.outline (run.map (·.content))).tokens

theorem isFollowed_done : IsFollowed .done := by
  intro source run last code more printed terminated bare hl
  have empty : source = [] := by simpa [print] using printed
  subst empty
  exact ⟨_, body_directive run more hl, Emitter.lexesLines_block bare⟩

theorem isFollowed_line {text : String} {rest : Template}
    (content : (Line.classify text).isContent = true) (here : Encoding.IsBare text)
    (h : IsFollowed rest) : IsFollowed (.line text rest) := by
  intro source run last code more printed terminated bare hl
  obtain ⟨line, behind, rfl, rfl, texts⟩ := List.map_eq_cons_iff.1 printed
  obtain ⟨closed, closed_behind⟩ := List.forall_mem_cons.1 terminated
  have gathered : ∀ other ∈ run ++ [line], Encoding.IsBare other.text :=
    List.forall_mem_append.2 ⟨bare, List.forall_mem_singleton.2 here⟩
  obtain ⟨lines, body, read⟩ := h behind (run ++ [line]) last code more texts closed_behind gathered hl
  refine ⟨lines, ?_, ?_⟩
  · rw [List.map_cons, List.cons_append, body_line run _ content closed, body]
  · simpa [outline, SourceLine.content, closed] using read

theorem isFollowed_choice {condition : String} {yes no rest : Template} (hc : IsUsable condition)
    (hy : IsFollowed yes) (hn : IsFollowed no) (h : IsFollowed rest) :
    IsFollowed (.choice condition yes no rest) := by
  intro source run last code more printed terminated bare hl
  obtain ⟨first, _, rfl, first_text, printed⟩ := List.map_eq_cons_iff.1 printed
  obtain ⟨inside, _, rfl, inside_texts, printed⟩ := List.map_eq_append_iff.1 printed
  obtain ⟨middle, _, rfl, middle_text, printed⟩ := List.map_eq_cons_iff.1 printed
  obtain ⟨otherwise, _, rfl, otherwise_texts, printed⟩ := List.map_eq_append_iff.1 printed
  obtain ⟨stop, behind, rfl, stop_text, behind_texts⟩ := List.map_eq_cons_iff.1 printed
  simp only [List.forall_mem_cons, List.forall_mem_append] at terminated
  obtain ⟨-, closed_inside, -, closed_otherwise, -, closed_behind⟩ := terminated
  have first_code := first_text ▸ Line.code?_if hc.toIsVariable
  have middle_code := middle_text ▸ Line.code?_else
  have stop_code := stop_text ▸ Line.code?_end
  -- Each body is followed up to the directive behind it, and the rest up to `last`.
  obtain ⟨ys, body_yes, read_yes⟩ := hy inside [] middle _
    (otherwise.map entry ++ entry stop :: (behind.map entry ++ entry last :: more)) inside_texts
    closed_inside (by simp) middle_code
  obtain ⟨ns, body_no, read_no⟩ := hn otherwise [] stop _
    (behind.map entry ++ entry last :: more) otherwise_texts closed_otherwise (by simp) stop_code
  obtain ⟨rs, body_rest, read_rest⟩ := h behind [] last code more behind_texts closed_behind
    (by simp) hl
  refine ⟨Emitter.block run ++ ⟨"if " ++ condition ++ " \x7b", some first⟩ ::
    (ys ++ ⟨"\x7d else \x7b", some middle⟩ :: (ns ++ ⟨"\x7d", some stop⟩ :: rs)), ?_, ?_⟩
  · simp only [List.map_cons, List.map_append, List.cons_append, List.append_assoc]
    rw [body_directive run _ first_code, body_yes, body_no, body_rest]
  · have back := read_no.append (LexesLines.cons (fun _ => lexes_end) read_rest)
    have middle := read_yes.append (LexesLines.cons (fun _ => lexes_else) back)
    have front := (Emitter.lexesLines_block bare).append
      (LexesLines.cons (fun _ => lexes_if hc.toIsVariable) middle)
    rw [outline, Emitter.tokens_blockOnto]
    simpa [Outline.tokens] using front

theorem isFollowed_each {item subject : String} {body rest : Template} (hi : IsUsable item)
    (hs : IsUsable subject) (hb : IsFollowed body) (h : IsFollowed rest) :
    IsFollowed (.each item subject body rest) := by
  intro source run last code more printed terminated bare hl
  obtain ⟨first, _, rfl, first_text, printed⟩ := List.map_eq_cons_iff.1 printed
  obtain ⟨inside, _, rfl, inside_texts, printed⟩ := List.map_eq_append_iff.1 printed
  obtain ⟨stop, behind, rfl, stop_text, behind_texts⟩ := List.map_eq_cons_iff.1 printed
  simp only [List.forall_mem_cons, List.forall_mem_append] at terminated
  obtain ⟨-, closed_inside, -, closed_behind⟩ := terminated
  have first_code := first_text ▸ Line.code?_for hi.toIsVariable hs.toIsVariable
  have stop_code := stop_text ▸ Line.code?_end
  obtain ⟨bs, body_inside, read_inside⟩ := hb inside [] stop _
    (behind.map entry ++ entry last :: more) inside_texts closed_inside (by simp) stop_code
  obtain ⟨rs, body_rest, read_rest⟩ := h behind [] last code more behind_texts closed_behind
    (by simp) hl
  refine ⟨Emitter.block run ++ ⟨"for " ++ item ++ " in " ++ subject ++ " \x7b", some first⟩ ::
    (bs ++ ⟨"\x7d", some stop⟩ :: rs), ?_, ?_⟩
  · simp only [List.map_cons, List.map_append, List.cons_append, List.append_assoc]
    rw [body_directive run _ first_code, body_inside, body_rest]
  · have back := read_inside.append (LexesLines.cons (fun _ => lexes_end) read_rest)
    have front := (Emitter.lexesLines_block bare).append
      (LexesLines.cons (fun _ => lexes_for hi.toIsVariable hs.toIsVariable) back)
    rw [outline, Emitter.tokens_blockOnto]
    simpa [Outline.tokens] using front

theorem isFollowed {t : Template} (plain : t.IsPlain) : IsFollowed t := by
  induction t with
  | done => exact isFollowed_done
  | line text rest ih =>
    obtain ⟨-, content, here, behind⟩ := plain
    exact isFollowed_line content here (ih behind)
  | choice condition yes no rest ihy ihn ih =>
    obtain ⟨hc, hy, hn, hr⟩ := plain
    exact isFollowed_choice hc (ihy hy) (ihn hn) (ih hr)
  | each item subject body rest ihb ih =>
    obtain ⟨hi, hs, hb, hr⟩ := plain
    exact isFollowed_each hi hs (ihb hb) (ih hr)

theorem levels_outline (t : Template) {run : List (String × Bool)} {n : Nat}
    (h : ∀ line ∈ run, Encoding.levels line.1 ≤ n) : (t.outline run).levels ≤ max n t.levels := by
  have none_gathered (n : Nat) : ∀ line ∈ ([] : List (String × Bool)), Encoding.levels line.1 ≤ n := by
    simp
  induction t generalizing run n with
  | done => exact Emitter.levels_blockOnto .done h
  | line text rest ih =>
    have gathered : ∀ line ∈ run ++ [(text, true)],
        Encoding.levels line.1 ≤ max n (Encoding.levels text) := by
      rw [List.forall_mem_append]
      constructor
      · intro line hl
        exact Nat.le_trans (h line hl) (Nat.le_max_left n _)
      · exact List.forall_mem_singleton.2 (Nat.le_max_right n _)
    have behind := ih gathered
    rwa [Nat.max_assoc] at behind
  | choice condition yes no rest ihy ihn ih =>
    have whole := Emitter.levels_blockOnto
      (.branch condition (yes.outline []) (no.outline []) (rest.outline [])) h
    have inside := ihy (none_gathered 0)
    have otherwise := ihn (none_gathered 0)
    have behind := ih (none_gathered 0)
    simp only [outline, levels, Outline.levels] at whole ⊢
    omega
  | each item subject body rest ihb ih =>
    have whole := Emitter.levels_blockOnto
      (.each item subject (body.outline []) (rest.outline [])) h
    have inside := ihb (none_gathered 0)
    have behind := ih (none_gathered 0)
    simp only [outline, levels, Outline.levels] at whole ⊢
    omega

theorem proper_outline {t : Template} (plain : t.IsPlain) {run : List (String × Bool)}
    (bare : ∀ line ∈ run, Encoding.IsBare line.1) : (t.outline run).Proper := by
  have none_gathered : ∀ line ∈ ([] : List (String × Bool)), Encoding.IsBare line.1 := by
    simp
  induction t generalizing run with
  | done => exact Emitter.proper_blockOnto bare trivial
  | line text rest ih =>
    obtain ⟨-, -, here, behind⟩ := plain
    exact ih behind (List.forall_mem_append.2 ⟨bare, List.forall_mem_singleton.2 here⟩)
  | choice condition yes no rest ihy ihn ih =>
    obtain ⟨hc, hy, hn, hr⟩ := plain
    exact Emitter.proper_blockOnto bare
      ⟨hc.own, ihy hy none_gathered, ihn hn none_gathered, ih hr none_gathered⟩
  | each item subject body rest ihb ih =>
    obtain ⟨hi, hs, hb, hr⟩ := plain
    exact Emitter.proper_blockOnto bare
      ⟨hi.own, hs.own, ihb hb none_gathered, ih hr none_gathered⟩

/-! ## Names -/

/-- The names of an emitter in the resolved mode, of which the mode is none of the outer ones. -/
structure Sees (names outer : Names) : Prop where
  mode : names Resolver.modeName = some (.bool false)
  same : ∀ name, name ≠ Resolver.modeName → names name = outer name

namespace Sees

variable {names outer : Names} {name item : String}

theorem shadow (h : Sees names outer) (hi : IsUsable item) (v : Json) :
    Sees (names.shadow item v) (outer.shadow item v) := by
  constructor
  · rw [Names.shadow, if_neg hi.mode.symm, h.mode]
  · intro name hn
    rw [Names.shadow, Names.shadow, h.same name hn]

theorem isTrue (h : Sees names outer) (hn : IsUsable name) : names.isTrue name = outer.isTrue name := by
  rw [Names.isTrue, Names.isTrue, h.same name hn.mode]

theorem items (h : Sees names outer) (hn : IsUsable name) : names.items name = outer.items name := by
  rw [Names.items, Names.items, h.same name hn.mode]

end Sees

def Known (run : List (String × Bool)) (outer : Names) : Prop :=
  ∀ line ∈ run, ∀ name ∈ Encoding.evaluated false line.1, (outer name).isSome = true

section

variable {names outer : Names} {run : List (String × Bool)} {t : Template}

theorem text_run (sees : Sees names outer) (bare : ∀ line ∈ run, Encoding.IsBare line.1)
    (known : Known run outer) :
    (Encoding.outline false run).text names =
      String.join (run.map fun line => Encoding.rendered false outer.shown line.1 line.2) := by
  rw [Encoding.text_outline]
  congr 1
  apply List.map_congr_left
  intro line hl
  apply Encoding.rendered_congr
  intro expr he
  have usable := Encoding.isUsable_of_mem_evaluated (bare line hl) he
  obtain ⟨v, found⟩ := Option.isSome_iff_exists.1 (known line hl _ he)
  rw [Append.value, Names.shown, Names.rendered, Names.rendered, sees.same _ usable.mode, found]

theorem missing_run (sees : Sees names outer) (bare : ∀ line ∈ run, Encoding.IsBare line.1)
    (known : Known run outer) : (Encoding.outline false run).missing names = [] := by
  rw [Encoding.missing_outline, List.filter_eq_nil_iff]
  intro name hn
  obtain ⟨line, hl, hn⟩ := List.mem_flatMap.1 hn
  have usable := Encoding.isUsable_of_mem_evaluated (bare line hl) hn
  have found := known line hl name hn
  rw [sees.same _ usable.mode]
  simp [Option.isSome_iff_ne_none.1 found]

end

structure Gives (o : Outline) (names : Names) (text : String) : Prop where
  fits : o.Fits names
  missing : o.missing names = []
  text : o.text names = text

namespace Gives

variable {names outer : Names} {yes no rest body : Outline} {a b : String}

theorem done : Gives .done names "" := ⟨trivial, rfl, rfl⟩

theorem block {run : List (String × Bool)} (sees : Sees names outer)
    (bare : ∀ line ∈ run, Encoding.IsBare line.1) (known : Known run outer)
    (h : Gives rest names a) :
    Gives (Emitter.blockOnto run rest) names (String.join (run.map fun line =>
      Encoding.rendered false outer.shown line.1 line.2) ++ a) := by
  constructor
  · exact (Emitter.fits_blockOnto sees.mode).2 h.fits
  · rw [Emitter.missing_blockOnto sees.mode, missing_run sees bare known, h.missing]
    rfl
  · rw [Emitter.text_blockOnto sees.mode, text_run sees bare known, h.text]

theorem branch {condition : String} {c : Bool} (known : names condition = some (.bool c))
    (chosen : Gives (if c then yes else no) names a) (h : Gives rest names b) :
    Gives (.branch condition yes no rest) names (a ++ b) := by
  have holds : names.isTrue condition = c := by
    rw [Names.isTrue, known]
  cases c with
  | true =>
    rw [if_pos rfl] at chosen
    constructor
    · exact ⟨⟨true, known⟩, by rw [holds]; exact chosen.fits, h.fits⟩
    · simp [Outline.missing, holds, chosen.missing, h.missing]
    · simp [Outline.text, holds, chosen.text, h.text]
  | false =>
    rw [if_neg (by decide)] at chosen
    constructor
    · exact ⟨⟨false, known⟩, by rw [holds]; exact chosen.fits, h.fits⟩
    · simp [Outline.missing, holds, chosen.missing, h.missing]
    · simp [Outline.text, holds, chosen.text, h.text]

theorem each {item subject : String} {items : List Json} {text : Json → String}
    (known : names subject = some (.array items))
    (inside : ∀ v ∈ items, Gives body (names.shadow item v) (text v)) (h : Gives rest names b) :
    Gives (.each item subject body rest) names (String.join (items.map text) ++ b) := by
  have values : names.items subject = items := by
    rw [Names.items, known]
  constructor
  · refine ⟨⟨items, known⟩, ?_, h.fits⟩
    intro v hv
    rw [values] at hv
    exact (inside v hv).fits
  · rw [Outline.missing, values, h.missing, List.append_nil, List.flatMap_eq_nil_iff]
    intro v hv
    exact (inside v hv).missing
  · rw [Outline.text, values, h.text]
    congr 2
    apply List.map_congr_left
    intro v hv
    exact (inside v hv).text

end Gives

/-- Whatever is gathered in front of it, the outline of a template gives what the template means. -/
theorem gives_outline {t : Template} (plain : t.IsPlain) {names outer : Names}
    {run : List (String × Bool)} (sees : Sees names outer)
    (bare : ∀ line ∈ run, Encoding.IsBare line.1) (known : Known run outer) (fits : t.Fits outer) :
    Gives (t.outline run) names (String.join (run.map fun line =>
      Encoding.rendered false outer.shown line.1 line.2) ++ t.meaning outer) := by
  have nothing_bare : ∀ line ∈ ([] : List (String × Bool)), Encoding.IsBare line.1 := by simp
  have nothing_known (outer : Names) : Known [] outer := by simp [Known]
  -- Content is gathered across lines, so `run` varies; bodies start with nothing gathered.
  induction t generalizing names outer run with
  | done => exact Gives.block sees bare known Gives.done
  | line text rest ih =>
    obtain ⟨-, -, bare_here, plain_rest⟩ := plain
    obtain ⟨known_here, behind⟩ := fits
    have gathered : ∀ line ∈ run ++ [(text, true)], Encoding.IsBare line.1 :=
      List.forall_mem_append.2 ⟨bare, List.forall_mem_singleton.2 bare_here⟩
    have found : Known (run ++ [(text, true)]) outer :=
      List.forall_mem_append.2 ⟨known, List.forall_mem_singleton.2 known_here⟩
    have whole := ih plain_rest sees gathered found behind
    simpa [outline, meaning, String.append_assoc] using whole
  | choice condition yes no rest ihy ihn ih =>
    obtain ⟨hc, plain_yes, plain_no, plain_rest⟩ := plain
    obtain ⟨⟨c, value⟩, chosen, behind⟩ := fits
    have later := ih plain_rest sees nothing_bare (nothing_known outer) behind
    have holds : outer.isTrue condition = c := by
      rw [Names.isTrue, value]
    have seen : names condition = some (.bool c) := by
      rw [sees.same _ hc.mode, value]
    rw [holds] at chosen
    have inside : Gives (if c then yes.outline [] else no.outline []) names
        (if c then yes.meaning outer else no.meaning outer) := by
      cases c with
      | true => simpa using ihy plain_yes sees nothing_bare (nothing_known outer) chosen
      | false => simpa using ihn plain_no sees nothing_bare (nothing_known outer) chosen
    rw [meaning, holds]
    exact Gives.block sees bare known (Gives.branch seen inside (by simpa using later))
  | each item subject body rest ihb ih =>
    obtain ⟨hi, hs, plain_body, plain_rest⟩ := plain
    obtain ⟨⟨items, value⟩, rounds, behind⟩ := fits
    have later := ih plain_rest sees nothing_bare (nothing_known outer) behind
    have values : outer.items subject = items := by
      rw [Names.items, value]
    have seen : names subject = some (.array items) := by
      rw [sees.same _ hs.mode, value]
    rw [values] at rounds
    have inside : ∀ v ∈ items, Gives (body.outline []) (names.shadow item v)
        (body.meaning (outer.shadow item v)) := by
      intro v hv
      simpa using ihb plain_body (sees.shadow hi v) nothing_bare (nothing_known _) (rounds v hv)
    rw [meaning, values]
    exact Gives.block sees bare known (Gives.each seen inside (by simpa using later))

/-! ## Runs -/

theorem body_void {void : SourceLine} (h : Emitter.isVoid void = true) (source run : List SourceLine)
    (more : List (SourceLine × Line)) :
    Emitter.body run (source.map entry ++ entry void :: more) =
      Emitter.body run (source.map entry ++ more) := by
  have no_code := Emitter.code?_of_isVoid h
  induction source generalizing run with
  | nil => simp [entry, Emitter.body, no_code, h]
  | cons line rest ih =>
    simp only [List.map_cons, List.cons_append, entry, Emitter.body] at ih ⊢
    cases (Line.classify line.text).code? with
    | none => exact ih _
    | some code => simp only [ih]

theorem kept_document {t : Template} (plain : t.IsPlain) (path : Path) :
    ∀ line ∈ (t.document path).lines, (Line.classify line.text).isInclude = false := by
  obtain ⟨source, void, lines, adds_nothing, texts, -⟩ := exists_lines plain path
  rw [lines]
  rw [List.forall_mem_append]
  constructor
  · intro line hl
    exact kept_of_mem_print plain _ (texts ▸ List.mem_map_of_mem hl)
  · rw [List.forall_mem_singleton, Emitter.text_of_isVoid adds_nothing]
    decide

theorem lexesLines_document {t : Template} (plain : t.IsPlain) (path : Path) :
    LexesLines ((Emitter.body [] (((t.document path).lines ++
      [Emitter.closing (t.document path)]).map entry)).map (·.code)) (t.outline []).tokens := by
  obtain ⟨source, void, lines, adds_nothing, texts, terminated⟩ := exists_lines plain path
  have closed : (Line.classify (Emitter.closing (t.document path)).text).code? = some "" := by
    rw [Emitter.classify_closing]
    rfl
  obtain ⟨emitted, body, read⟩ := isFollowed plain source [] _ "" [] texts terminated
    (by simp) closed
  have last : LexesLines [""] [] := LexesLines.line fun _ => Lexes.nil
  have whole := read.append last
  rw [lines, List.map_append, List.map_append, List.map_singleton, List.map_singleton,
    List.append_assoc, List.singleton_append, body_void adds_nothing, body]
  simpa [Emitter.body] using whole

/--
Compiling a printed template keeps its meaning: the emitter runs once, to the text that the template
stands for.
-/
theorem run_document {t : Template} (plain : t.IsPlain) (depth : t.levels ≤ Parser.depthLimit)
    (tree : FileTree) (spec : Spec) (path : Path) (maxAttempts : Nat)
    (quiet : Emitter.HasQuietOpening path) (fits : t.Fits spec.get?) :
    ∃ emitter, Emitter.compile tree spec none false (t.document path) = .ok emitter ∧
      emitter.run ⟨maxAttempts, false, 0⟩ spec = (.ok ⟨t.meaning spec.get?, [], 1⟩, spec) := by
  have none_gathered : (t.outline []).levels ≤ max 0 t.levels := levels_outline t (by simp)
  have deep : (t.outline []).levels ≤ Parser.depthLimit := by omega
  have read := lexesLines_document plain path
  obtain ⟨emitter, body, compiled, program, script⟩ :=
    @Emitter.compile_of_outline (t.document path) (t.outline []) tree spec quiet (kept_document plain path) read deep
  have sees : Sees (Emission.names false spec) spec.get? :=
    ⟨Emission.names_mode false spec, fun name hn => Emission.names_of_ne hn⟩
  have gives : Gives (t.outline []) (Emission.names false spec) (t.meaning spec.get?) := by
    have nothing_known : Known [] spec.get? := by simp [Known]
    simpa using gives_outline plain sees (by simp) nothing_known fits
  have none_missing : ((t.outline []).missing (Emission.names false spec)).eraseDups = [] := by
    rw [gives.missing, List.eraseDups_nil]
  have run := @Emitter.run_outline _ _ _ ⟨maxAttempts, false, 0⟩ _ _ program script
    (proper_outline plain (by simp)) rfl gives.fits none_missing gives.fits gives.missing
  rw [List.foldl_nil, gives.text] at run
  exact ⟨emitter, compiled, by simpa using run⟩

def listing : Template :=
  .choice "flag" (.each "item" "items" (.line "- $\x7bitem\x7d" .done) .done)
    (.line "nothing" .done) .done

def listed : Spec := ⟨[("flag", .bool true), ("items", .array [.string "a", .integer 2])]⟩

theorem run_document_of_listing :
    listing.IsPlain ∧ listing.levels ≤ Parser.depthLimit ∧ Emitter.HasQuietOpening ⟨"page"⟩ ∧
      listing.Fits listed.get? ∧
      (listing.document ⟨"page"⟩).text = "//! if flag \x7b\n//! for item in items \x7b\n" ++
        "- $\x7bitem\x7d\n//! \x7d\n//! \x7d else \x7b\nnothing\n//! \x7d\n" ∧
      ∃ emitter, Emitter.compile ⟨[], []⟩ listed none false (listing.document ⟨"page"⟩) =
          .ok emitter ∧
        emitter.run ⟨100, false, 0⟩ listed = (.ok ⟨"- a\n- 2\n", [], 1⟩, listed) := by
  have plain : listing.IsPlain := by
    have inside : IsPlain (.line "- $\x7bitem\x7d" .done) :=
      ⟨by decide, by decide, by decide +kernel, trivial⟩
    have otherwise : IsPlain (.line "nothing" .done) :=
      ⟨by decide, by decide, by decide +kernel, trivial⟩
    exact ⟨by decide, ⟨by decide, by decide, inside, trivial⟩, otherwise, trivial⟩
  have depth : listing.levels ≤ Parser.depthLimit := by decide +kernel
  have quiet : Emitter.HasQuietOpening ⟨"page"⟩ := Emitter.hasQuietOpening (by simp)
  have fits : listing.Fits listed.get? := by
    have inside : ∀ v ∈ Names.items listed.get? "items",
        Fits (.line "- $\x7bitem\x7d" .done) (Names.shadow listed.get? "item" v) := by
      intro v hv
      have names : Encoding.evaluated false "- $\x7bitem\x7d" = ["item"] := by decide +kernel
      constructor
      · rw [names]
        simp [Names.shadow]
      · trivial
    have chosen : Names.isTrue listed.get? "flag" = true := by decide
    constructor
    · exact ⟨true, rfl⟩
    · rw [if_pos chosen]
      exact ⟨⟨⟨_, rfl⟩, inside, trivial⟩, trivial⟩
  have text : listing.meaning listed.get? = "- a\n- 2\n" := by decide +kernel
  obtain ⟨emitter, compiled, run⟩ :=
    run_document plain depth ⟨[], []⟩ listed ⟨"page"⟩ 100 quiet fits
  rw [text] at run
  exact ⟨plain, depth, quiet, fits, by decide +kernel, emitter, compiled, run⟩

/-- A path that ends the opening comment is read as code, whatever the template. -/
theorem run_document_of_carriage_return :
    IsPlain (.line "x" .done) ∧ levels (.line "x" .done) ≤ Parser.depthLimit ∧
      Fits (.line "x" .done) (Spec.get? ⟨[]⟩) ∧ meaning (.line "x" .done) (Spec.get? ⟨[]⟩) = "x\n" ∧
      ∃ emitter, Emitter.compile ⟨[], []⟩ ⟨[]⟩ none false (document ⟨"a\x0db"⟩ (.line "x" .done)) =
          .ok emitter ∧
        ∃ message location fragment, emitter.run ⟨100, false, 0⟩ ⟨[]⟩ =
          (.error (.syntaxError message location fragment), ⟨[]⟩) := by
  have plain : IsPlain (.line "x" .done) := ⟨by decide, by decide, by decide +kernel, trivial⟩
  have fits : Fits (.line "x" .done) (Spec.get? ⟨[]⟩) := ⟨by decide +kernel, trivial⟩
  have kept : ∀ line ∈ (document ⟨"a\x0db"⟩ (.line "x" .done)).lines,
      (Line.classify line.text).isInclude = false := by
    decide +kernel
  have compiled := @Emitter.compile_of_kept ⟨[], []⟩ ⟨[]⟩ none false _ kept
  refine ⟨plain, by decide +kernel, fits, by decide +kernel, _, compiled, ?_⟩
  apply Emitter.run_of_unreadable
  decide +kernel

end Template

end Stencil
