import Stencil.Proofs.Lines
import Stencil.Proofs.Script.Lexing
import Stencil.Proofs.Script.Outline

/-!
# What encodings mean

The statements of an encoded line are read as an outline: a literal appends its text, and a
substitution whose expression is a name, with white space around it or not, is guarded by itself.
The outline appends the text of the line with the values of the names in it, and misses the names
that are substituted and stand for nothing.
-/

namespace Stencil

open Script
open Script.Lexer (IsVariable Lexes LexesLines IsGap isGap_blank)
open Script.Lexer.Lexes

/-! ## White space around a name -/

namespace Text

theorem exists_trimLeft (cs : List Char) :
    ∃ before, before.all isBlank = true ∧ cs = before ++ trimLeft cs := by
  refine ⟨cs.takeWhile isBlank, List.all_takeWhile, ?_⟩
  rw [trimLeft, List.takeWhile_append_dropWhile]

theorem exists_trimRight (cs : List Char) :
    ∃ after, after.all isBlank = true ∧ cs = trimRight cs ++ after := by
  refine ⟨(cs.reverse.takeWhile isBlank).reverse, ?_, ?_⟩
  · rw [List.all_reverse]
    exact List.all_takeWhile
  · rw [trimRight, ← List.reverse_append, List.takeWhile_append_dropWhile, List.reverse_reverse]

theorem exists_trim (s : String) :
    ∃ before after, before.all isBlank = true ∧ after.all isBlank = true ∧
      s.toList = before ++ ((trim s).toList ++ after) := by
  obtain ⟨before, hb, left⟩ := exists_trimLeft s.toList
  obtain ⟨after, ha, right⟩ := exists_trimRight (trimLeft s.toList)
  refine ⟨before, after, hb, ha, ?_⟩
  rw [trim, String.toList_ofList, trimChars, ← right, ← left]

end Text

/-! ## Statements -/

namespace Append

def onto : Append → Outline → Outline
  | .literal text, rest => .append text rest
  | .guarded expr, rest => .guarded (Text.trim expr) (fallback expr) rest

def IsPlain : Append → Prop
  | .literal _ => True
  | .guarded expr => IsVariable (Text.trim expr)

variable {rest : List Char}

theorem lexes_appending (text : String) :
    Lexes ("code += " ++ Text.literal text ++ ";").toList
      [.name "code", .sign "+=", .text text, .sign ";"] rest := by
  have parts : ("code += " ++ Text.literal text ++ ";").toList =
      "code".toList ++ ([' ', '+', '='] ++ (' ' :: (Text.literal text).toList ++ [';'])) := by
    simp
  have name : IsVariable "code" := by decide
  have space : Text.isBlank ' ' = true := by decide
  rw [parts]
  apply append (variable_name name (endsWord_cons (by decide)))
  apply append (blank space plus_equals)
  apply append (blank space (Lexes.literal text (by simp)))
  exact semicolon

theorem lexes_argument {expr : String} (h : IsVariable (Text.trim expr)) :
    Lexes ('(' :: (expr.toList ++ [')'])) [.sign "(", .name (Text.trim expr), .sign ")"] rest := by
  obtain ⟨before, after, hb, ha, eq⟩ := Text.exists_trim expr
  have closing : Lexes (after ++ [')']) [.sign ")"] rest :=
    append (gap (isGap_blank ha)) closing_parenthesis
  have ends : EndsWord (after ++ [')'] ++ rest) := by
    cases after with
    | nil => exact endsWord_cons (by decide)
    | cons c more =>
      rw [List.all_cons, Bool.and_eq_true] at ha
      exact endsWord_cons (isNamePart_eq_false_of_isBlank ha.1)
  have inside : Lexes (before ++ ((Text.trim expr).toList ++ (after ++ [')'])))
      [.name (Text.trim expr), .sign ")"] rest :=
    append (gap (isGap_blank hb)) (append (variable_name h ends) closing)
  -- Neither white space nor the first character of a name prolongs the parenthesis.
  obtain ⟨c, more, chars, star, closed⟩ :
      ∃ c more, before ++ ((Text.trim expr).toList ++ (after ++ [')'])) = c :: more ∧
        c ≠ '*' ∧ c ≠ ')' := by
    cases before with
    | cons c more =>
      rw [List.all_cons, Bool.and_eq_true] at hb
      refine ⟨c, _, rfl, ?_, ?_⟩
      · rintro rfl
        exact absurd hb.1 (by decide)
      · rintro rfl
        exact absurd hb.1 (by decide)
    | nil =>
      have start := h.start
      cases name : (Text.trim expr).toList with
      | nil => simp [name] at start
      | cons c more =>
        have first : isNameStart c = true := by simpa [name] using start
        exact ⟨c, _, rfl, ne_of_isNameStart first (by decide), ne_of_isNameStart first (by decide)⟩
  have whole : expr.toList ++ [')'] = c :: more := by
    rw [← chars, eq]
    simp
  rw [chars] at inside
  rw [whole]
  exact append (opening_parenthesis rfl star closed) inside

/-- The tokens of a guarded statement around those of its argument in parentheses. -/
def guard (argument : List Token) (fallback : String) : List Token :=
  [.word "try", .sign "\x7b", .name "code", .sign "+=", .name "_render"] ++ argument ++
    [.sign ";", .sign "\x7d", .word "catch", .sign "\x7b", .name "code", .sign "+=",
      .text fallback, .sign ";", .sign "\x7d"]

theorem lexes_guarded {expr : String} {ts : List Token}
    (argument : ∀ rest, Lexes ('(' :: (expr.toList ++ [')'])) ts rest) :
    Lexes (Append.guarded expr).script.toList (guard ts (fallback expr)) rest := by
  have space : Text.isBlank ' ' = true := by decide
  have render : IsVariable "_render" := by decide
  have code : IsVariable "code" := by decide
  have trying : "try" ∈ grammarWords := by decide
  have catching : "catch" ∈ grammarWords := by decide
  have parts : (Append.guarded expr).script.toList =
      "try".toList ++ ([' ', '\x7b'] ++ (' ' :: "code".toList ++ ([' ', '+', '='] ++
        (' ' :: "_render".toList ++ ('(' :: (expr.toList ++ [')']) ++ ([';'] ++ ([' ', '\x7d'] ++
        (' ' :: "catch".toList ++ ([' ', '\x7b'] ++
        (' ' :: ("code += " ++ Text.literal (fallback expr) ++ ";").toList ++
          [' ', '\x7d'])))))))))) := by
    change ("try \x7b code += _render(" ++ expr ++ "); \x7d catch \x7b code += " ++
      Text.literal (fallback expr) ++ "; \x7d").toList = _
    simp
  rw [parts, guard]
  simp only [List.cons_append, List.nil_append]
  apply append (keyword trying (endsWord_cons (by decide)))
  apply append (blank space opening_brace)
  apply append (blank space (variable_name code (endsWord_cons (by decide))))
  apply append (blank space plus_equals)
  apply append (blank space (variable_name render (endsWord_cons (by decide))))
  apply append (argument _)
  apply append semicolon
  apply append (blank space closing_brace)
  apply append (blank space (keyword catching (endsWord_cons (by decide))))
  apply append (blank space opening_brace)
  apply append (blank space (lexes_appending (fallback expr)))
  exact blank space closing_brace

theorem lexes_script {a : Append} (h : a.IsPlain) :
    Lexes a.script.toList (a.onto .done).tokens rest := by
  cases a with
  | literal text => exact lexes_appending text
  | guarded expr => exact lexes_guarded fun _ => lexes_argument h

/-! ### Meaning -/

def value (names : Names) (expr : String) : String :=
  names.rendered (Text.trim expr) (fallback expr)

/-- The text that is appended, if `value` gives the texts of the expressions. -/
def shown (value : String → String) : Append → String
  | .literal text => text
  | .guarded expr => value expr

def text (names : Names) : Append → String
  | .literal text => text
  | .guarded expr => value names expr

theorem text_eq_shown (names : Names) : text names = shown (value names) := by
  funext a
  cases a <;> rfl

def missing (names : Names) : Append → List String
  | .literal _ => []
  | .guarded expr => if (names (Text.trim expr)).isSome then [] else [Text.trim expr]

variable {names : Names} {as : List Append} {rest : Outline}

theorem tokens_onto (as : List Append) (rest : Outline) :
    (as.foldr onto rest).tokens = as.flatMap (fun a => (a.onto .done).tokens) ++ rest.tokens := by
  induction as with
  | nil => rfl
  | cons a more ih =>
    rw [List.foldr_cons, List.flatMap_cons, List.append_assoc, ← ih]
    cases a <;> simp [onto, Outline.tokens]

theorem text_onto : (as.foldr onto rest).text names =
    String.join (as.map (text names)) ++ rest.text names := by
  induction as with
  | nil => simp
  | cons a more ih =>
    rw [List.map_cons, String.join_cons, String.append_assoc, ← ih]
    cases a <;> rfl

theorem missing_onto : (as.foldr onto rest).missing names =
    as.flatMap (missing names) ++ rest.missing names := by
  induction as with
  | nil => rfl
  | cons a more ih =>
    rw [List.flatMap_cons, List.append_assoc, ← ih]
    cases a <;> rfl

theorem fits_onto : (as.foldr onto rest).Fits names ↔ rest.Fits names := by
  induction as with
  | nil => rfl
  | cons a more ih =>
    rw [← ih]
    cases a <;> rfl

theorem levels_onto {n : Nat} (guarded : ∀ expr, .guarded expr ∈ as → 3 ≤ n) :
    (as.foldr onto rest).levels ≤ max n rest.levels := by
  induction as with
  | nil => exact Nat.le_max_right n rest.levels
  | cons a more ih =>
    have later := ih fun expr h => guarded expr (List.mem_cons_of_mem a h)
    cases a with
    | literal text => exact later
    | guarded expr =>
      have deep := guarded expr List.mem_cons_self
      simp only [List.foldr_cons, onto, Outline.levels]
      omega

theorem proper_onto (own : ∀ expr, .guarded expr ∈ as → Text.trim expr ≠ "code")
    (behind : rest.Proper) : (as.foldr onto rest).Proper := by
  induction as with
  | nil => exact behind
  | cons a more ih =>
    have later := ih fun expr h => own expr (List.mem_cons_of_mem a h)
    cases a with
    | literal text => exact later
    | guarded expr => exact ⟨own expr List.mem_cons_self, later⟩

theorem join_shown_prepend (value : String → String) (t : String) (as : List Append) :
    String.join ((prepend t as).map (shown value)) = t ++ String.join (as.map (shown value)) := by
  unfold prepend
  split
  · simp [shown, String.append_assoc]
  · split
    · rename_i empty
      rw [empty, String.empty_append]
    · simp [shown]

theorem missing_prepend (t : String) (as : List Append) :
    (prepend t as).flatMap (missing names) = as.flatMap (missing names) := by
  unfold prepend
  split
  · simp [missing]
  · split <;> simp [missing]

end Append

/-! ## Content lines -/

/-- A name that is a variable to the engine and has no other use in an emitter. -/
structure IsUsable (name : String) : Prop extends IsVariable name where
  own : name ≠ "code"
  mode : name ≠ Resolver.modeName

instance (name : String) : Decidable (IsUsable name) :=
  decidable_of_iff (IsVariable name ∧ name ≠ "code" ∧ name ≠ Resolver.modeName)
    ⟨fun ⟨h, own, mode⟩ => ⟨h, own, mode⟩, fun h => ⟨h.toIsVariable, h.own, h.mode⟩⟩

/-- The text of an expression that is a name; nothing if it stands for nothing. -/
def Script.Names.shown (names : Names) (expr : String) : String :=
  names.rendered (Text.trim expr) ""

namespace Segment

/-- The text of a segment, if `value` gives the texts of the expressions that are evaluated. -/
def rendered (deferred : Bool) (value : String → String) : Segment → String
  | .text t => t
  | .generation expr => value expr
  | .emission expr => if deferred then "$\x7b" ++ expr ++ "\x7d" else value expr

def evaluated? (deferred : Bool) : Segment → Option String
  | .text _ => none
  | .generation expr => some (Text.trim expr)
  | .emission expr => if deferred then none else some (Text.trim expr)

end Segment

namespace Encoding

def rendered (deferred : Bool) (value : String → String) (line : String) (terminated : Bool) :
    String :=
  String.join ((segments line).map (Segment.rendered deferred value)) ++
    if terminated then "\n" else ""

def evaluated (deferred : Bool) (line : String) : List String :=
  (segments line).filterMap (Segment.evaluated? deferred)

/-- Every substitution of a content line is that of a usable name, evaluated or not. -/
def IsBare (line : String) : Prop :=
  ∀ expr ∈ (segments line).filterMap Segment.expr?, IsUsable (Text.trim expr)

instance (line : String) : Decidable (IsBare line) :=
  inferInstanceAs (Decidable (∀ expr ∈ (segments line).filterMap Segment.expr?,
    IsUsable (Text.trim expr)))

/-- How deep the block of a content line is nested in the eyes of the engine. -/
def levels (line : String) : Nat :=
  if (segments line).filterMap Segment.expr? = [] then 2 else 5

variable {deferred : Bool} {names : Names}

theorem join_shown_appends (value : String → String) (tail : List Append) (row : List Segment) :
    String.join ((appends deferred tail row).map (Append.shown value)) =
      String.join (row.map (Segment.rendered deferred value)) ++
      String.join (tail.map (Append.shown value)) := by
  induction row with
  | nil => simp [appends]
  | cons s rest ih =>
    rw [List.map_cons, String.join_cons, String.append_assoc, ← ih]
    cases s with
    | text t => exact Append.join_shown_prepend value t _
    | generation expr => simp [appends, Append.shown, Segment.rendered]
    | emission expr =>
      cases deferred with
      | false => simp [appends, Append.shown, Segment.rendered]
      | true => exact Append.join_shown_prepend value _ _

theorem missing_appends (tail : List Append) (row : List Segment) :
    (appends deferred tail row).flatMap (Append.missing names) =
      (row.filterMap (Segment.evaluated? deferred)).filter (fun name => (names name).isNone) ++
        tail.flatMap (Append.missing names) := by
  have guarded (expr : String) (found : List String) :
      Append.missing names (.guarded expr) ++ found.filter (fun name => (names name).isNone) =
        (Text.trim expr :: found).filter (fun name => (names name).isNone) := by
    cases h : names (Text.trim expr) <;> simp [Append.missing, h]
  induction row with
  | nil => simp [appends]
  | cons s rest ih =>
    cases s with
    | text t => exact (Append.missing_prepend t _).trans ih
    | generation expr =>
      rw [appends, List.flatMap_cons, ih, ← List.append_assoc, guarded]
      rfl
    | emission expr =>
      cases deferred with
      | false =>
        rw [appends, if_neg (by decide), List.flatMap_cons, ih, ← List.append_assoc, guarded]
        rfl
      | true => exact (Append.missing_prepend _ _).trans ih

theorem join_shown_statements (value : String → String) (line : String) (terminated : Bool) :
    String.join ((statements deferred line terminated).map (Append.shown value)) =
      rendered deferred value line terminated := by
  rw [statements, join_shown_appends]
  cases terminated <;> simp [ending, rendered, Append.shown]

theorem missing_statements (line : String) (terminated : Bool) :
    (statements deferred line terminated).flatMap (Append.missing names) =
      (evaluated deferred line).filter fun name => (names name).isNone := by
  rw [statements, missing_appends]
  cases terminated <;> simp [ending, evaluated, Append.missing]

theorem mem_exprs_of_mem_statements {line expr : String} {terminated : Bool}
    (guarded : Append.guarded expr ∈ statements deferred line terminated) :
    expr ∈ (segments line).filterMap Segment.expr? := by
  rcases mem_segments_of_mem_appends guarded with he | ⟨s, hs, he, -⟩
  · cases terminated <;> simp [ending] at he
  · exact List.mem_filterMap.2 ⟨s, hs, he⟩

theorem exists_expr_of_mem_evaluated {line name : String} (hn : name ∈ evaluated deferred line) :
    ∃ expr ∈ (segments line).filterMap Segment.expr?, name = Text.trim expr := by
  obtain ⟨s, hs, he⟩ := List.mem_filterMap.1 hn
  cases s with
  | text t => simp [Segment.evaluated?] at he
  | generation expr =>
    simp only [Segment.evaluated?, Option.some.injEq] at he
    exact ⟨expr, List.mem_filterMap.2 ⟨_, hs, rfl⟩, he.symm⟩
  | emission expr =>
    cases deferred with
    | true => simp [Segment.evaluated?] at he
    | false =>
      simp only [Segment.evaluated?, Bool.false_eq_true, if_false, Option.some.injEq] at he
      exact ⟨expr, List.mem_filterMap.2 ⟨_, hs, rfl⟩, he.symm⟩

theorem isUsable_of_mem_evaluated {line name : String} (h : IsBare line)
    (hn : name ∈ evaluated deferred line) : IsUsable name := by
  obtain ⟨expr, he, rfl⟩ := exists_expr_of_mem_evaluated hn
  exact h expr he

theorem rendered_congr {value value' : String → String} {line : String} (terminated : Bool)
    (same : ∀ expr, Text.trim expr ∈ evaluated deferred line → value expr = value' expr) :
    rendered deferred value line terminated = rendered deferred value' line terminated := by
  have row : (segments line).map (Segment.rendered deferred value) =
      (segments line).map (Segment.rendered deferred value') := by
    apply List.map_congr_left
    intro s hs
    have shown (expr : String) (he : s.evaluated? deferred = some (Text.trim expr)) :
        value expr = value' expr :=
      same expr (List.mem_filterMap.2 ⟨s, hs, he⟩)
    cases s with
    | text t => rfl
    | generation expr => exact shown expr rfl
    | emission expr =>
      cases deferred with
      | true => rfl
      | false => exact shown expr rfl
  rw [rendered, rendered, row]

/-! ## Runs of content lines -/

/-- The statements of a run of content lines. -/
def rows (deferred : Bool) (run : List (String × Bool)) : List Append :=
  run.flatMap fun line => statements deferred line.1 line.2

def outline (deferred : Bool) (run : List (String × Bool)) : Outline :=
  (run.flatMap fun line => statements deferred line.1 line.2).foldr Append.onto .done

variable {run : List (String × Bool)}

theorem lexes_row {tokens : Append → List Token} {as : List Append}
    (h : ∀ a ∈ as, ∀ rest, Lexes a.script.toList (tokens a) rest) {rest : List Char} :
    Lexes (String.intercalate " " (as.map Append.script)).toList (as.flatMap tokens) rest := by
  induction as with
  | nil => exact Lexes.nil
  | cons a more ih =>
    have later := ih fun other ho => h other (List.mem_cons_of_mem a ho)
    cases more with
    | nil =>
      rw [List.map_singleton, String.intercalate_singleton, List.flatMap_singleton]
      exact h a List.mem_cons_self rest
    | cons next others =>
      rw [List.map_cons, List.map_cons, String.intercalate_cons_cons, String.toList_append,
        String.toList_append, List.append_assoc, List.flatMap_cons]
      apply Lexes.append (h a List.mem_cons_self _)
      exact blank (by decide) later

theorem mem_exprs_of_mem_rows {expr : String} (h : .guarded expr ∈ rows deferred run) :
    ∃ line ∈ run, expr ∈ (segments line.1).filterMap Segment.expr? := by
  obtain ⟨line, hl, he⟩ := List.mem_flatMap.1 h
  exact ⟨line, hl, mem_exprs_of_mem_statements he⟩

theorem lexesLines_rows {tokens : Append → List Token}
    (h : ∀ line ∈ run, ∀ a ∈ statements deferred line.1 line.2, ∀ rest,
      Lexes a.script.toList (tokens a) rest) :
    LexesLines (run.map fun line => script deferred line.1 line.2)
      ((run.flatMap fun line => statements deferred line.1 line.2).flatMap tokens) := by
  induction run with
  | nil => exact LexesLines.nil
  | cons line rest ih =>
    rw [List.map_cons, List.flatMap_cons, List.flatMap_append]
    exact LexesLines.cons (fun _ => lexes_row (h line List.mem_cons_self))
      (ih fun other ho => h other (List.mem_cons_of_mem line ho))

theorem lexesLines_outline (h : ∀ line ∈ run, IsBare line.1) :
    LexesLines (run.map fun line => script deferred line.1 line.2)
      (outline deferred run).tokens := by
  rw [outline, Append.tokens_onto, Outline.tokens, List.append_nil]
  refine lexesLines_rows fun line hl a ha rest => Append.lexes_script ?_
  cases a with
  | literal text => trivial
  | guarded expr => exact (h line hl expr (mem_exprs_of_mem_statements ha)).toIsVariable

theorem join_shown_rows (value : String → String) :
    String.join ((rows deferred run).map (Append.shown value)) =
      String.join (run.map fun line => rendered deferred value line.1 line.2) := by
  induction run with
  | nil => rfl
  | cons line rest ih =>
    rw [rows] at ih ⊢
    rw [List.flatMap_cons, List.map_append, String.join_append, join_shown_statements, ih,
      List.map_cons, String.join_cons]

theorem text_outline : (outline deferred run).text names =
    String.join (run.map fun line => rendered deferred (Append.value names) line.1 line.2) := by
  rw [outline, Append.text_onto, Outline.text, String.append_empty, Append.text_eq_shown]
  exact join_shown_rows (Append.value names)

theorem missing_outline : (outline deferred run).missing names =
    (run.flatMap fun line => evaluated deferred line.1).filter fun name => (names name).isNone := by
  rw [outline, Append.missing_onto, Outline.missing, List.append_nil]
  induction run with
  | nil => rfl
  | cons line rest ih =>
    rw [List.flatMap_cons, List.flatMap_append, missing_statements, ih, List.flatMap_cons,
      List.filter_append]

theorem fits_outline : (outline deferred run).Fits names :=
  Append.fits_onto.2 trivial

theorem levels_outline {n : Nat} (h : ∀ line ∈ run, levels line.1 ≤ n + 2) :
    (outline deferred run).levels ≤ n := by
  have guarded : ∀ expr, Append.guarded expr ∈
      (run.flatMap fun line => statements deferred line.1 line.2) → 3 ≤ n := by
    intro expr he
    obtain ⟨line, hl, he⟩ := List.mem_flatMap.1 he
    have some_expr := List.ne_nil_of_mem (mem_exprs_of_mem_statements he)
    have bound := h line hl
    rw [levels, if_neg some_expr] at bound
    omega
  have whole := @Append.levels_onto _ .done n guarded
  rwa [Outline.levels, Nat.max_zero] at whole

theorem proper_outline (h : ∀ line ∈ run, IsBare line.1) : (outline deferred run).Proper := by
  refine Append.proper_onto (fun expr he => ?_) trivial
  obtain ⟨line, hl, he⟩ := List.mem_flatMap.1 he
  exact (h line hl expr (mem_exprs_of_mem_statements he)).own

end Encoding

end Stencil
