import Stencil.Proofs.Content
import Stencil.Proofs.Template

/-!
# Captures

The content between two parentheses is gathered in an accumulator of its own, which is the value of
the block that it becomes.  Where the block is bound to a variable that is appended at once, the
document runs as the one whose content just stands there: the accumulator hides the outer one only
inside the block, and the variable hides a field only behind it.
-/

namespace Stencil

open Script
open Script.Lexer (IsVariable Lexes LexesLines)

/-- Content lines, of which the middle ones are captured in a variable that is appended at once. -/
structure Capture where
  name : String
  front : List String
  inside : List String
  behind : List String

/-- The document of lines that all end with a newline. -/
def Document.ofLines (path : Path) (lines : List String) : Document :=
  ⟨path, String.join (lines.map (· ++ "\n"))⟩

namespace Capture

variable {c : Capture} {lines : List String}

def print (c : Capture) : List String :=
  c.front ++ ("//! " ++ ("let " ++ c.name ++ " =")) :: "//! (" :: (c.inside ++
    "//! )" :: ("//! " ++ ("code += " ++ c.name ++ ";")) :: c.behind)

/-- The content alone. -/
def content (c : Capture) : List String := c.front ++ (c.inside ++ c.behind)

/-- Content lines whose substitutions are those of usable names. -/
def IsContent (lines : List String) : Prop :=
  ∀ line ∈ lines, OneLine line ∧ (Line.classify line).isContent = true ∧ Encoding.IsBare line

instance (lines : List String) : Decidable (IsContent lines) :=
  inferInstanceAs (Decidable (∀ line ∈ lines,
    OneLine line ∧ (Line.classify line).isContent = true ∧ Encoding.IsBare line))

/-- The outline of a run of content lines that all end with a newline. -/
def outline (lines : List String) : Outline := Emitter.blockOnto (lines.map (·, true)) .done

/-! ## Directives -/

theorem code?_declaration {name : String} (h : IsVariable name) :
    (Line.classify ("//! " ++ ("let " ++ name ++ " ="))).code? = some ("let " ++ name ++ " =") := by
  have chars : ("let " ++ name ++ " =").toList =
      'l' :: (('e' :: 't' :: ' ' :: (name.toList ++ [' '])) ++ ['=']) := by
    simp
  have line : OneLine ("let " ++ name ++ " =") :=
    ((show OneLine "let " by decide).append (Line.oneLine_of_isVariable h)).append (by decide)
  apply Line.code?_directive chars line (by decide) (by decide)
  rw [chars]
  rfl

theorem code?_appending {name : String} (h : IsVariable name) :
    (Line.classify ("//! " ++ ("code += " ++ name ++ ";"))).code? =
      some ("code += " ++ name ++ ";") := by
  have chars : ("code += " ++ name ++ ";").toList =
      'c' :: (('o' :: 'd' :: 'e' :: ' ' :: '+' :: '=' :: ' ' :: name.toList) ++ [';']) := by
    simp
  have line : OneLine ("code += " ++ name ++ ";") :=
    ((show OneLine "code += " by decide).append (Line.oneLine_of_isVariable h)).append (by decide)
  apply Line.code?_directive chars line (by decide) (by decide)
  rw [chars]
  rfl

theorem code?_open : (Line.classify "//! (").code? = some "\x7b let code = \"\";" := by
  decide

theorem code?_close : (Line.classify "//! )").code? = some "code \x7d;" := by
  decide

theorem forall_mem_print (plain : IsContent c.content) (named : IsVariable c.name)
    {P : String → Prop}
    (content : ∀ line, OneLine line → (Line.classify line).isContent = true → P line)
    (directive : ∀ line code, OneLine line → (Line.classify line).code? = some code → P line) :
    ∀ line ∈ c.print, P line := by
  have own (line : String) (h : line ∈ c.content) : P line := by
    obtain ⟨one_line, is_content, -⟩ := plain line h
    exact content line one_line is_content
  have declared := code?_declaration named
  have appended := code?_appending named
  have marked {code : String} (h : OneLine code) : OneLine ("//! " ++ code) :=
    OneLine.append (by decide) h
  simp only [print, List.mem_append, List.mem_cons]
  rintro line (h | rfl | rfl | h | rfl | rfl | h)
  · exact own line (by simp [Capture.content, h])
  · exact directive _ _ (marked (Line.oneLine_code declared)) declared
  · exact directive _ _ (by decide) code?_open
  · exact own line (by simp [Capture.content, h])
  · exact directive _ _ (by decide) code?_close
  · exact directive _ _ (marked (Line.oneLine_code appended)) appended
  · exact own line (by simp [Capture.content, h])

/-! ## Lines -/

theorem filter_isVoid {source : List SourceLine} (h : ∀ line ∈ source, line.terminated = true) :
    source.filter (!Emitter.isVoid ·) = source := by
  rw [List.filter_eq_self]
  intro line hl
  simp [Emitter.isVoid, h line hl]

theorem content_of_terminated {source : List SourceLine} (texts : source.map (·.text) = lines)
    (h : ∀ line ∈ source, line.terminated = true) :
    source.map (·.content) = lines.map (·, true) := by
  rw [← texts, List.map_map]
  apply List.map_congr_left
  intro line hl
  simp [SourceLine.content, h line hl]

/-- A block of content lines that all end with a newline. -/
theorem lexesLines_outline {source : List SourceLine} (texts : source.map (·.text) = lines)
    (h : ∀ line ∈ source, line.terminated = true) (plain : IsContent lines) :
    LexesLines ((Emitter.block source).map (·.code)) (outline lines).tokens := by
  have bare : ∀ line ∈ source, Encoding.IsBare line.text := by
    intro line hl
    exact (plain line.text (texts ▸ List.mem_map_of_mem hl)).2.2
  have read := Emitter.lexesLines_block bare
  rwa [content_of_terminated texts h] at read

theorem body_run {run : List SourceLine} {last : SourceLine} {code : String}
    (texts : run.map (·.text) = lines) (h : ∀ line ∈ run, line.terminated = true)
    (plain : IsContent lines) (more : List (SourceLine × Line))
    (hl : (Line.classify last.text).code? = some code) :
    Emitter.body [] (run.map Template.entry ++ Template.entry last :: more) =
      Emitter.block run ++ ⟨code, some last⟩ :: Emitter.body [] more := by
  have no_code : ∀ line ∈ run, (Line.classify line.text).code? = none := by
    intro line hl
    exact Line.code?_of_isContent (plain line.text (texts ▸ List.mem_map_of_mem hl)).2.1
  have body := Emitter.body_content [] more no_code hl
  rwa [List.nil_append, filter_isVoid h] at body

/-- The tokens of the block that a capture becomes, around those of its content. -/
def blockTokens (inside : List Token) : List Token :=
  .sign "\x7b" :: ([.word "let", .name "code", .sign "=", .text "", .sign ";"] ++
    (inside ++ [.name "code"]) ++ [.sign "\x7d"])

/-- The tokens behind the front of a capture. -/
def boundTokens (c : Capture) : List Token :=
  [.word "let", .name c.name, .sign "="] ++ blockTokens (outline c.inside).tokens ++ [.sign ";"] ++
    ([.name "code", .sign "+=", .name c.name, .sign ";"] ++ (outline c.behind).tokens)

def tokens (c : Capture) : List Token := (outline c.front).tokens ++ c.boundTokens

theorem lexes_open {rest : List Char} :
    Lexes "\x7b let code = \"\";".toList
      [.sign "\x7b", .word "let", .name "code", .sign "=", .text "", .sign ";"] rest := by
  have parts : "\x7b let code = \"\";".toList =
      ['\x7b'] ++ (' ' :: "let code = \"\";".toList) := by
    decide
  rw [parts]
  exact Lexes.opening_brace.append (Lexes.blank (by decide) Emitter.lexes_declaration)

theorem lexes_close {rest : List Char} :
    Lexes "code \x7d;".toList [.name "code", .sign "\x7d", .sign ";"] rest := by
  have parts : "code \x7d;".toList = "code".toList ++ ((' ' :: ['\x7d']) ++ [';']) := by
    decide
  have name : IsVariable "code" := by decide
  rw [parts]
  apply Lexes.append (Lexes.variable_name name (Lexes.endsWord_cons (by decide)))
  exact (Lexes.blank (by decide) Lexes.closing_brace).append Lexes.semicolon

theorem lexes_appending {name : String} {rest : List Char} (h : IsVariable name) :
    Lexes ("code += " ++ name ++ ";").toList [.name "code", .sign "+=", .name name, .sign ";"]
      rest := by
  have parts : ("code += " ++ name ++ ";").toList =
      "code".toList ++ ((' ' :: ['+', '=']) ++ ((' ' :: name.toList) ++ [';'])) := by
    simp
  have code : IsVariable "code" := by decide
  have space : Text.isBlank ' ' = true := by decide
  rw [parts]
  apply Lexes.append (Lexes.variable_name code (Lexes.endsWord_cons (by decide)))
  apply Lexes.append (Lexes.blank space Lexes.plus_equals)
  apply Lexes.append (Lexes.blank space (Lexes.variable_name h (Lexes.endsWord_cons (by decide))))
  exact Lexes.semicolon

theorem lexesLines_document (plain : IsContent c.content) (named : IsVariable c.name)
    (path : Path) :
    LexesLines ((Emitter.body [] (((Document.ofLines path c.print).lines ++
      [Emitter.closing (Document.ofLines path c.print)]).map Template.entry)).map (·.code))
      c.tokens := by
  have one_line : ∀ line ∈ c.print, OneLine line :=
    forall_mem_print plain named (fun _ h _ => h) fun _ _ h _ => h
  obtain ⟨source, void, lines, adds_nothing, texts, terminated⟩ :=
    Document.exists_lines_join path one_line
  have closed : (Line.classify (Emitter.closing (Document.ofLines path c.print)).text).code? =
      some "" := by
    rw [Emitter.classify_closing]
    rfl
  change (Document.ofLines path c.print).lines = _ at lines
  generalize Emitter.closing (Document.ofLines path c.print) = closing at closed ⊢
  obtain ⟨front, _, rfl, front_texts, texts⟩ := List.map_eq_append_iff.1 texts
  obtain ⟨declaration, _, rfl, declaration_text, texts⟩ := List.map_eq_cons_iff.1 texts
  obtain ⟨opening, _, rfl, opening_text, texts⟩ := List.map_eq_cons_iff.1 texts
  obtain ⟨inside, _, rfl, inside_texts, texts⟩ := List.map_eq_append_iff.1 texts
  obtain ⟨ending, _, rfl, ending_text, texts⟩ := List.map_eq_cons_iff.1 texts
  obtain ⟨appending, behind, rfl, appending_text, behind_texts⟩ := List.map_eq_cons_iff.1 texts
  simp only [List.forall_mem_cons, List.forall_mem_append] at terminated
  obtain ⟨closed_front, -, -, closed_inside, -, -, closed_behind⟩ := terminated
  simp only [IsContent, content, List.forall_mem_append] at plain
  obtain ⟨plain_front, plain_inside, plain_behind⟩ := plain
  have declares := declaration_text ▸ code?_declaration named
  have opens := opening_text ▸ code?_open
  have ends := ending_text ▸ code?_close
  have appends := appending_text ▸ code?_appending named
  have last : LexesLines [""] [] := LexesLines.line fun _ => Lexes.nil
  have read := (lexesLines_outline front_texts closed_front plain_front).append
    (LexesLines.cons (fun _ => Lexes.declaration named (.inr rfl))
      (LexesLines.cons (fun _ => lexes_open)
        ((lexesLines_outline inside_texts closed_inside plain_inside).append
          (LexesLines.cons (fun _ => lexes_close)
            (LexesLines.cons (fun _ => lexes_appending named)
              ((lexesLines_outline behind_texts closed_behind plain_behind).append last))))))
  have rows : (front ++ declaration :: opening :: (inside ++ ending :: appending :: behind) ++
      [void] ++ [closing]).map Template.entry =
        front.map Template.entry ++ Template.entry declaration :: Template.entry opening ::
          (inside.map Template.entry ++ Template.entry ending :: Template.entry appending ::
            (behind.map Template.entry ++ Template.entry void :: [Template.entry closing])) := by
    simp
  rw [lines, rows, body_run front_texts closed_front plain_front _ declares,
    Template.body_directive [] _ opens, body_run inside_texts closed_inside plain_inside _ ends,
    Template.body_directive [] _ appends, Template.body_void adds_nothing,
    body_run behind_texts closed_behind plain_behind _ closed]
  simpa [tokens, boundTokens, blockTokens, Emitter.body, Emitter.block] using read

/-! ## Statements -/

/-- A block with an accumulator of its own that is bound to a variable. -/
def Binds (name : String) (o : Outline) (s : Stmt) : Prop :=
  ∃ inner p q, o.IsScript inner ∧ s = .declare name (.statement (.block inner p)) false q

def Appends (name : String) (s : Stmt) : Prop :=
  ∃ u p q, s = Outline.appending (.variable name u) p q

/-- The statements behind the front of a capture. -/
def IsBound (c : Capture) : List Stmt → Prop :=
  Parser.Begins (Binds c.name (outline c.inside))
    (Parser.Begins (Appends c.name) (outline c.behind).Shape)

def IsRead (c : Capture) : List Stmt → Prop := Parser.Onto (outline c.front) c.IsBound

theorem levels_outline (lines : List String) : (outline lines).levels ≤ 5 := by
  have shallow (line : String) : Encoding.levels line ≤ 5 := by
    unfold Encoding.levels
    split <;> decide
  exact Emitter.levels_blockOnto .done fun line _ => shallow line.1

section

open Parser

variable {K : List Function → Prop} {fuel : Nat} {a : Around}

/-- The last variable of a block. -/
theorem readsBody_code : ReadsBody K (fuel + 6) a [.name "code"]
    (∃ p, · = [.expr (.variable "code" p)]) := by
  intro acc u us
  refine reads_statements_last (by simp) (by simp) ((reads_mention (by simp [stops]) rfl).mono ?_)
  rintro s ⟨p, rfl⟩
  exact ⟨⟨_, by simp, p, rfl⟩, rfl⟩

/-- The statements of a block that fills an accumulator of its own and ends with it. -/
theorem readsBody_script {o : Outline} (enough : 2 * o.tokens.length + 23 ≤ fuel)
    (depth : a.depth + o.levels ≤ a.limit) :
    ReadsBody K fuel a ([.word "let", .name "code", .sign "=", .text "", .sign ";"] ++
      (o.tokens ++ [.name "code"])) o.IsScript := by
  obtain ⟨k, rfl⟩ : ∃ k, fuel = k + 7 := ⟨fuel - 7, by omega⟩
  have last : ∀ fuel, 16 ≤ fuel → ReadsBody K fuel a [.name "code"]
      (∃ p, · = [.expr (.variable "code" p)]) := by
    intro fuel h
    obtain ⟨n, rfl⟩ : ∃ n, fuel = n + 6 := ⟨fuel - 6, by omega⟩
    exact readsBody_code
  have rows := @reads_onto K _ _ o (k + 6) a _ _ rowwise_body last (by simp) (by omega)
    (Nat.le_refl 16) depth
  refine (readsBody_cons readsFirst_content rows).mono ?_
  rintro _ ⟨_, _, rfl, ⟨p, q, rfl⟩, ss, _, rfl, shape, u, rfl⟩
  exact ⟨ss, p, q, u, shape, rfl⟩

theorem reads_block_value {ts us : List Token} {t : Token} {R : List Stmt → Prop}
    (ht : t ∈ stops) (depth : a.depth + 1 < a.limit)
    (h : ReadsBody K fuel (within { a with depth := a.depth + 1 }) ts R) :
    Reads K (expression (fuel + 4) a) (.sign "\x7b" :: (ts ++ .sign "\x7d" :: t :: us)) (t :: us)
      (∃ body p, R body ∧ · = .statement (.block body p)) := by
  refine reads_expression ht (reads_operand (by simp [prefixes]) ?_)
  refine Reads.bind Reads.peek fun p hp => ?_
  rw [hp]
  refine Reads.bind (Reads.deeper (by omega)) ?_
  rintro _ rfl
  refine Reads.bind (reads_body_block (by simp; omega) h) ?_
  rintro _ ⟨body, q, holds, rfl⟩
  exact reads_steps ht ⟨body, q, holds, rfl⟩

theorem readsFirst_binding {name : String} {o : Outline} (enough : 2 * o.tokens.length + 29 ≤ fuel)
    (depth : a.depth + o.levels + 2 ≤ a.limit) :
    ReadsFirst K fuel a
      ([.word "let", .name name, .sign "="] ++ blockTokens o.tokens ++ [.sign ";"])
      (Binds name o) := by
  obtain ⟨k, rfl⟩ : ∃ k, fuel = k + 6 := ⟨fuel - 6, by omega⟩
  have inside : ReadsBody K k (within { a with top := false, depth := a.depth + 1 }) _
      o.IsScript :=
    readsBody_script (by omega) (by simp [within]; omega)
  have value (u : Token) (us : List Token) : Reads K (expression (k + 4) a.inner)
      (blockTokens o.tokens ++ .sign ";" :: u :: us) (.sign ";" :: u :: us)
      (∃ body p, o.IsScript body ∧ · = .statement (.block body p)) := by
    have read := @reads_block_value K k a.inner _ (u :: us) (.sign ";") _ (by simp [stops])
      (by simp [Around.inner]; omega) inside
    simpa [blockTokens] using read
  refine (readsFirst_declaration value).mono ?_
  rintro _ ⟨_, q, ⟨inner, p, script, rfl⟩, rfl⟩
  exact ⟨inner, p, q, script, rfl⟩

theorem readsFirst_appends {name : String} :
    ReadsFirst K (fuel + 5) a [.name "code", .sign "+=", .name name, .sign ";"] (Appends name) := by
  refine (readsFirst_appending fun _ _ => reads_variable (by simp [stops])).mono ?_
  rintro _ ⟨_, p, q, ⟨u, rfl⟩, rfl⟩
  exact ⟨u, p, q, rfl⟩

theorem readsScript_tokens {c : Capture} {limit : Nat} (enough : 2 * c.tokens.length + 40 ≤ fuel)
    (depth : 7 ≤ limit) :
    ReadsScript K fuel ⟨true, false, false, false, 0, limit⟩ c.tokens c.IsRead := by
  have front_levels := levels_outline c.front
  have inside_levels := levels_outline c.inside
  have behind_levels := levels_outline c.behind
  have open_ := head?_tokens_ne_ended (outline c.behind)
  simp only [tokens, boundTokens, blockTokens, List.length_append, List.length_cons,
    List.length_nil] at enough
  have bound : ∀ fuel,
      2 * ((outline c.inside).tokens.length + (outline c.behind).tokens.length) + 40 ≤ fuel →
      ReadsScript K fuel ⟨true, false, false, false, 0, limit⟩ c.boundTokens c.IsBound := by
    intro fuel h
    obtain ⟨k, rfl⟩ : ∃ k, fuel = k + 7 := ⟨fuel - 7, by omega⟩
    have behind := @reads_script K (outline c.behind) (k + 5)
      ⟨true, false, false, false, 0, limit⟩ (by omega) (by simp; omega)
    have binds := @readsFirst_binding K (k + 6) ⟨true, false, false, false, 0, limit⟩ c.name
      (outline c.inside) (by omega) (by simp; omega)
    exact readsScript_cons binds (readsScript_cons readsFirst_appends behind open_) (by simp)
  exact reads_onto (outline c.front) rowwise_script bound (by simp [boundTokens]) (by omega)
    (by omega) (by simp; omega)

end

/-! ## What it means -/

section

variable {more : List String} {names : Names} {deferred : Bool} {name : String}

theorem proper_outline (plain : IsContent lines) : (outline lines).Proper := by
  have last : Outline.Proper .done := trivial
  refine Emitter.proper_blockOnto (fun line hl => ?_) last
  obtain ⟨text, ht, rfl⟩ := List.mem_map.1 hl
  exact (plain text ht).2.2

theorem fits_outline (mode : names Resolver.modeName = some (.bool deferred)) :
    (outline lines).Fits names :=
  (Emitter.fits_blockOnto mode).2 trivial

theorem text_outline (mode : names Resolver.modeName = some (.bool deferred)) :
    (outline lines).text names = String.join (lines.map fun line =>
      Encoding.rendered deferred (Append.value names) line true) := by
  rw [outline, Emitter.text_blockOnto mode, Outline.text, String.append_empty,
    Encoding.text_outline, List.map_map]
  rfl

theorem missing_outline (mode : names Resolver.modeName = some (.bool deferred)) :
    (outline lines).missing names = (lines.flatMap fun line =>
      Encoding.evaluated deferred line).filter fun name => (names name).isNone := by
  rw [outline, Emitter.missing_blockOnto mode, Outline.missing, List.append_nil,
    Encoding.missing_outline, List.flatMap_map]

theorem text_outline_append (mode : names Resolver.modeName = some (.bool deferred)) :
    (outline (lines ++ more)).text names =
      (outline lines).text names ++ (outline more).text names := by
  rw [text_outline mode, text_outline mode, text_outline mode, List.map_append, String.join_append]

theorem missing_outline_append (mode : names Resolver.modeName = some (.bool deferred)) :
    (outline (lines ++ more)).missing names =
      (outline lines).missing names ++ (outline more).missing names := by
  rw [missing_outline mode, missing_outline mode, missing_outline mode, List.flatMap_append,
    List.filter_append]

/-- A variable that lines do not evaluate hides nothing from them. -/
theorem shadow_of_unread {v : Json}
    (unread : ∀ line ∈ lines, name ∉ Encoding.evaluated deferred line) {line other : String}
    (hl : line ∈ lines) (ho : other ∈ Encoding.evaluated deferred line) :
    names.shadow name v other = names other := by
  rw [Names.shadow, if_neg]
  rintro rfl
  exact unread line hl ho

theorem text_outline_shadow {v : Json} (mode : names Resolver.modeName = some (.bool deferred))
    (hn : name ≠ Resolver.modeName)
    (unread : ∀ line ∈ lines, name ∉ Encoding.evaluated deferred line) :
    (outline lines).text (names.shadow name v) = (outline lines).text names := by
  have mode' : names.shadow name v Resolver.modeName = some (.bool deferred) := by
    rw [Names.shadow, if_neg hn.symm, mode]
  rw [text_outline mode', text_outline mode]
  refine congrArg String.join (List.map_congr_left fun line hl => ?_)
  apply Encoding.rendered_congr
  intro expr he
  rw [Append.value, Append.value, Names.rendered, Names.rendered, shadow_of_unread unread hl he]

theorem missing_outline_shadow {v : Json} (mode : names Resolver.modeName = some (.bool deferred))
    (hn : name ≠ Resolver.modeName)
    (unread : ∀ line ∈ lines, name ∉ Encoding.evaluated deferred line) :
    (outline lines).missing (names.shadow name v) = (outline lines).missing names := by
  have mode' : names.shadow name v Resolver.modeName = some (.bool deferred) := by
    rw [Names.shadow, if_neg hn.symm, mode]
  rw [missing_outline mode', missing_outline mode]
  apply List.filter_congr
  intro other ho
  obtain ⟨line, hl, ho⟩ := List.mem_flatMap.1 ho
  rw [shadow_of_unread unread hl ho]

end

/-! ## Runs -/

section

open Eval

variable {below : Below} {r : Resolver} {scope : List Binding} {out name name' : String} {s : Stmt}
  {ss : List Stmt} {o : Outline}

/-- The accumulator of a block is gone behind it, and its text is the value of the variable. -/
theorem ends_binding (h : Binds name o s) (proper : o.Proper) (hs : Scope [] [] out scope)
    (hr : r.Sound) (fits : o.Fits (sight [] r)) :
    ∃ r', Ends (stmt (engine []) below (Simplify.stmt true s)) scope r (.ok .unit)
        (⟨name, .string (o.text (sight [] r)), false⟩ :: scope) r' ∧
      Resolver.Later r (o.missing (sight [] r)) r' := by
  obtain ⟨inner, p, q, script, rfl⟩ := h
  have hidden : ∀ b ∈ scope, b.name = "code" := by
    cases hs
    simp
  obtain ⟨scope', r', ends, hs', later⟩ :=
    @ends_script scope r below o proper inner script hidden hr fits
  have restored : scope'.drop (scope'.length - scope.length) = scope := by
    cases hs'
    simp
  have enclosed := ends.enclosed
  rw [restored] at enclosed
  have block : Ends (stmt (engine []) below (.block (Simplify.body inner) p)) scope r
      (.ok (.string (o.text (sight [] r)))) scope r' := Ends.bind Ends.tick enclosed
  refine ⟨r', ?_, later⟩
  apply Ends.bind Ends.tick
  exact Ends.bind block (Ends.bind Ends.declare Ends.pure)

theorem ends_appends {text : String} (h : Appends name s) (other : name ≠ "code")
    (hs : Scope [] [(name, .string text)] out scope) (hr : r.Sound) :
    ∃ scope' r',
      Ends (stmt (engine []) below (Simplify.stmt true s)) scope r (.ok .unit) scope' r' ∧
      Scope [] [(name, .string text)] (out ++ text) scope' ∧ Resolver.Later r [] r' := by
  obtain ⟨u, p, q, rfl⟩ := h
  have known : sight [(name, .string text)] r name = some (.string text) := by
    simp [sight]
  obtain ⟨r', value, later⟩ := @ends_variable [] _ _ _ _ _ _ u below _ hs hr other known
  obtain ⟨scope', ends, hs'⟩ := @ends_appending [] _ _ _ _ _ p below _ q _ _ hs value
  exact ⟨scope', r', ends, hs', later⟩

theorem prune_bound {front behind : List Stmt} {declares appends : Stmt}
    (h : Binds name o declares) (h' : Appends name' appends) :
    Simplify.prune false (Simplify.stmts true (front ++ declares :: appends :: behind)) =
      Simplify.prune false (Simplify.stmts true front) ++ Simplify.stmt true declares ::
        Simplify.stmt true appends :: Simplify.prune false (Simplify.stmts true behind) := by
  obtain ⟨inner, p, q, -, rfl⟩ := h
  obtain ⟨u, v, w, rfl⟩ := h'
  simp only [Simplify.stmts_append, Simplify.stmts, Simplify.prune_false, List.filter_append]
  rfl

theorem performs_capture {c : Capture} {deferred : Bool} (plain : IsContent c.content)
    (usable : IsUsable c.name)
    (unread : ∀ line ∈ c.behind, c.name ∉ Encoding.evaluated deferred line) (h : c.IsRead ss)
    (hr : r.Sound) (mode : sight [] r Resolver.modeName = some (.bool deferred)) :
    ∃ scope' r', Performs [] below (Simplify.prune false (Simplify.stmts true ss))
        [⟨"code", .string "", false⟩] r scope' r' ∧
      Scope [] [(c.name, .string ((outline c.inside).text (sight [] r)))]
        ((outline c.content).text (sight [] r)) scope' ∧
      Resolver.Later r ((outline c.content).missing (sight [] r)) r' := by
  obtain ⟨front, _, rfl, shape_front, declares, _, rfl, binds, appends, behind, rfl, adds,
    shape_behind⟩ := h
  simp only [IsContent, content, List.forall_mem_append] at plain
  obtain ⟨plain_front, plain_inside, plain_behind⟩ := plain
  have works_front : Works below _ front := works_of_shape (proper_outline plain_front) shape_front
  have works_behind : Works below _ behind :=
    works_of_shape (proper_outline plain_behind) shape_behind
  generalize held : (outline c.inside).text (sight [] r) = text
  have shadowed := sight_cons c.name (.string text) [] r
  have mode' : sight [(c.name, .string text)] r Resolver.modeName = some (.bool deferred) := by
    rw [shadowed, Names.shadow, if_neg usable.mode.symm, mode]
  obtain ⟨scope₁, r₁, performs_front, hs₁, later₁⟩ :=
    works_front false true [] [] "" _ r (.code "" (by simp)) hr (fits_outline mode)
  have same₁ := @sight_of_later [] _ _ _ later₁
  obtain ⟨r₂, bound, later₂⟩ := @ends_binding below _ _ _ _ _ _ binds (proper_outline plain_inside)
    hs₁ later₁.sound (fits_outline (by rw [same₁, mode]))
  rw [same₁] at bound later₂
  rw [held] at bound
  have inner : Scope [] [(c.name, .string text)] ("" ++ (outline c.front).text (sight [] r))
      (⟨c.name, .string text, false⟩ :: scope₁) := .item (.string text) false usable.own hs₁
  obtain ⟨scope₃, r₃, added, hs₃, later₃⟩ :=
    @ends_appends below _ _ _ _ _ _ adds usable.own inner later₂.sound
  have until_here := (later₁.trans later₂).trans later₃
  obtain ⟨scope₄, r₄, performs_behind, hs₄, later₄⟩ :=
    works_behind.behind false true (fits_outline mode') hs₃ until_here
  rw [shadowed, text_outline_shadow mode usable.mode unread] at hs₄
  rw [shadowed, missing_outline_shadow mode usable.mode unread] at later₄
  refine ⟨scope₄, r₄, ?_, ?_, ?_⟩
  · rw [prune_bound binds adds]
    exact performs_front.append (.cons bound (.cons added performs_behind))
  · rw [content, text_outline_append mode, text_outline_append mode, held, ← String.append_assoc]
    rwa [String.empty_append] at hs₄
  · rw [content, missing_outline_append mode, missing_outline_append mode, ← List.append_assoc]
    simpa using until_here.trans later₄

theorem prints_capture {c : Capture} {deferred : Bool} {body : List Stmt}
    (plain : IsContent c.content) (usable : IsUsable c.name)
    (unread : ∀ line ∈ c.behind, c.name ∉ Encoding.evaluated deferred line)
    (framed : IsFramed c.IsRead body) :
    Emission.Prints ⟨[], Simplify.body body⟩
      (fun names => names Resolver.modeName = some (.bool deferred))
      (outline c.content).text (outline c.content).missing := by
  intro below r sound mode
  obtain ⟨ss, p, q, u, read, rfl⟩ := framed
  obtain ⟨scope', r', ends, -, later⟩ :=
    ends_frame (@performs_capture below r ss c deferred plain usable unread read sound mode)
  exact ⟨scope', r', ends, later⟩

end

/-! ## Documents -/

theorem content_ofLines (plain : IsContent lines) (path : Path) :
    ∀ line ∈ (Document.ofLines path lines).lines,
      (Line.classify line.text).isContent = true ∧ Encoding.IsBare line.text := by
  obtain ⟨source, void, eq, adds_nothing, texts, -⟩ :=
    Document.exists_lines_join path fun line hl => (plain line hl).1
  rw [Document.ofLines, eq, List.forall_mem_append, List.forall_mem_singleton,
    Emitter.text_of_isVoid adds_nothing]
  refine ⟨fun line hl => ?_, by decide, by decide +kernel⟩
  exact (plain line.text (texts ▸ List.mem_map_of_mem hl)).2

theorem contentOutline_ofLines (plain : IsContent lines) (path : Path) :
    Emitter.contentOutline (Document.ofLines path lines) = outline lines := by
  obtain ⟨source, void, eq, adds_nothing, texts, terminated⟩ :=
    Document.exists_lines_join path fun line hl => (plain line hl).1
  rw [Emitter.contentOutline, Document.ofLines, eq, List.filter_append, filter_isVoid terminated,
    outline, ← content_of_terminated texts terminated]
  simp [adds_nothing]

theorem compile_print (plain : IsContent c.content) (named : IsVariable c.name) (tree : FileTree)
    (spec : Spec) {path : Path} (quiet : Emitter.HasQuietOpening path) :
    ∃ emitter body, Emitter.compile tree spec none false (Document.ofLines path c.print) =
        .ok emitter ∧
      emitter.program = .ok ⟨[], Simplify.body body⟩ ∧ IsFramed c.IsRead body := by
  have kept : ∀ line ∈ (Document.ofLines path c.print).lines,
      (Line.classify line.text).isInclude = false := by
    have printed : ∀ line ∈ c.print, (Line.classify line).isInclude = false :=
      forall_mem_print plain named (fun _ _ h => Line.isInclude_eq_false_of_isContent h)
        fun _ _ _ h => Line.isInclude_eq_false_of_code? h
    have one_line : ∀ line ∈ c.print, OneLine line :=
      forall_mem_print plain named (fun _ h _ => h) fun _ _ h _ => h
    obtain ⟨source, void, eq, adds_nothing, texts, -⟩ :=
      Document.exists_lines_join path one_line
    rw [Document.ofLines, eq, List.forall_mem_append, List.forall_mem_singleton,
      Emitter.text_of_isVoid adds_nothing]
    exact ⟨fun line hl => printed line.text (texts ▸ List.mem_map_of_mem hl), by decide⟩
  obtain ⟨emitter, compiled, lines⟩ := Emitter.compile_of_lines tree spec kept
  have tokens := Emitter.tokens_of_lexesLines quiet lines (lexesLines_document plain named path)
  have open_ : c.tokens.head? ≠ some .ended :=
    Parser.head?_tokens_append (outline c.front) (by simp [boundTokens])
  obtain ⟨_, body, parsed, rfl, framed⟩ := parseWithin_of_frame (K := (· = [])) rfl tokens open_
    (@readsScript_tokens (· = []) _ c Parser.depthLimit (by omega) (by decide))
  refine ⟨emitter, body, compiled, ?_, framed⟩
  rw [Emitter.program, ← parseWithin_depthLimit, parsed]
  rfl

/--
Capturing content in a variable and appending the variable at once changes nothing: the document
runs as the one whose content just stands there, unless the content behind evaluates the variable.
-/
theorem run_capture (tree : FileTree) (spec : Spec) (maxAttempts : Nat) (deferred : Bool)
    (path : Path) (quiet : Emitter.HasQuietOpening path) (plain : IsContent c.content)
    (usable : IsUsable c.name)
    (unread : ∀ line ∈ c.behind, c.name ∉ Encoding.evaluated deferred line) :
    ∃ captured direct,
      Emitter.compile tree spec none false (Document.ofLines path c.print) = .ok captured ∧
      Emitter.compile tree spec none false (Document.ofLines path c.content) = .ok direct ∧
      captured.run ⟨maxAttempts, deferred, 0⟩ spec =
        direct.run ⟨maxAttempts, deferred, 0⟩ spec := by
  obtain ⟨captured, body, compiled, program, framed⟩ :=
    compile_print plain usable.toIsVariable tree spec quiet
  have is_content := fun line hl => (content_ofLines plain path line hl).1
  have bare := fun line hl => (content_ofLines plain path line hl).2
  obtain ⟨direct, compiled', run⟩ := @Emitter.run_content (Document.ofLines path c.content)
    tree spec maxAttempts deferred quiet is_content bare
  refine ⟨captured, direct, compiled, compiled', ?_⟩
  have prints := prints_capture plain usable unread framed
  rw [← contentOutline_ofLines plain path] at prints
  have run' := @Emitter.run_of_prints captured _ _ _ _ ⟨maxAttempts, deferred, 0⟩ spec _ program
    prints rfl (Emission.names_mode deferred spec) (Emitter.missing_eq_undefined spec bare)
    (Emission.names_mode deferred _) (Emitter.missing_defined spec bare)
  rw [Emitter.text_defined spec bare] at run'
  rw [run, run']

/-- The variable has the name of a field, which the captured content still reads. -/
def letter : Capture :=
  ⟨"name", ["Dear $\x7bname\x7d,"], ["$$\x7bname\x7d has $\x7bnews\x7d."], ["Yours"]⟩

theorem run_capture_of_letter :
    Emitter.HasQuietOpening ⟨"page"⟩ ∧ IsContent letter.content ∧ IsUsable letter.name ∧
      (∀ line ∈ letter.behind, letter.name ∉ Encoding.evaluated false line) ∧
      (Document.ofLines ⟨"page"⟩ letter.print).text =
        "Dear $\x7bname\x7d,\n//! let name =\n//! (\n$$\x7bname\x7d has $\x7bnews\x7d.\n" ++
          "//! )\n//! code += name;\nYours\n" ∧
      ∃ captured, Emitter.compile ⟨[], []⟩ ⟨[("name", .string "Bob")]⟩ none false
          (Document.ofLines ⟨"page"⟩ letter.print) = .ok captured ∧
        captured.run ⟨100, false, 0⟩ ⟨[("name", .string "Bob")]⟩ =
          (.ok ⟨"Dear Bob,\nBob has .\nYours\n", ["news"], 2⟩,
            ⟨[("name", .string "Bob"), ("news", .object [])]⟩) := by
  have quiet : Emitter.HasQuietOpening ⟨"page"⟩ := Emitter.hasQuietOpening (by simp)
  have plain : IsContent letter.content := by decide +kernel
  have usable : IsUsable letter.name := by decide
  have unread : ∀ line ∈ letter.behind, letter.name ∉ Encoding.evaluated false line := by
    decide +kernel
  obtain ⟨captured, direct, compiled, compiled', same⟩ := run_capture ⟨[], []⟩
    ⟨[("name", .string "Bob")]⟩ 100 false ⟨"page"⟩ quiet plain usable unread
  obtain ⟨other, compiled_other, run⟩ := @Emitter.run_content
    (Document.ofLines ⟨"page"⟩ letter.content) ⟨[], []⟩ ⟨[("name", .string "Bob")]⟩ 100 false quiet
    (by decide +kernel) (by decide +kernel)
  obtain rfl : direct = other := Except.ok.inj (compiled'.symm.trans compiled_other)
  have text : Document.rendered false ⟨[("name", .string "Bob")]⟩
      (Document.ofLines ⟨"page"⟩ letter.content) = "Dear Bob,\nBob has .\nYours\n" := by
    decide +kernel
  have undefined : Document.undefined false ⟨[("name", .string "Bob")]⟩
      (Document.ofLines ⟨"page"⟩ letter.content) = ["news"] := by
    decide +kernel
  rw [text, undefined] at run
  exact ⟨quiet, plain, usable, unread, by decide +kernel, captured, compiled, same.trans run⟩

/-- A path can open a comment that the content closes, be it captured or not. -/
theorem run_capture_of_carriage_return :
    ∃ c : Capture, c = ⟨"x", [], ["*/ let code = `ab`; if _deferred \x7b //"], []⟩ ∧
      OneLine "a\x0d/*" ∧ IsContent c.content ∧ IsUsable c.name ∧
      (∀ line ∈ c.behind, c.name ∉ Encoding.evaluated false line) ∧
      ∃ captured direct,
        Emitter.compile ⟨[], []⟩ ⟨[]⟩ none false (Document.ofLines ⟨"a\x0d/*"⟩ c.print) =
          .ok captured ∧
        Emitter.compile ⟨[], []⟩ ⟨[]⟩ none false (Document.ofLines ⟨"a\x0d/*"⟩ c.content) =
          .ok direct ∧
        (∃ message location fragment, captured.run ⟨100, false, 0⟩ ⟨[]⟩ =
          (.error (.syntaxError message location fragment), ⟨[]⟩)) ∧
        (direct.run ⟨100, false, 0⟩ ⟨[]⟩).1.toOption =
          some ⟨"ab*/ let code = `ab`; if _deferred \x7b //\n", [], 1⟩ := by
  generalize same : (⟨"x", [], ["*/ let code = `ab`; if _deferred \x7b //"], []⟩ : Capture) = c
  have kept : ∀ line ∈ (Document.ofLines ⟨"a\x0d/*"⟩ c.print).lines,
      (Line.classify line.text).isInclude = false := by
    rw [← same]
    decide +kernel
  have kept' : ∀ line ∈ (Document.ofLines ⟨"a\x0d/*"⟩ c.content).lines,
      (Line.classify line.text).isInclude = false := by
    rw [← same]
    decide +kernel
  have compiled := @Emitter.compile_of_kept ⟨[], []⟩ ⟨[]⟩ none false _ kept
  have compiled' := @Emitter.compile_of_kept ⟨[], []⟩ ⟨[]⟩ none false _ kept'
  subst same
  refine ⟨_, rfl, by decide, by decide +kernel, by decide, by decide, _, _, compiled, compiled', ?_,
    ?_⟩
  · apply Emitter.run_of_unreadable
    rw [parse, Parser.run, Emitter.tokens_source]
    decide +kernel
  · rw [Emitter.run, Emitter.program, parse, Parser.run, Emitter.tokens_source]
    decide +kernel

end Capture

end Stencil
