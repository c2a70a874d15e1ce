import Stencil.Spec
import Stencil.Proofs.Script.Literal

/-!
# Embedded specs

The header of a spec is the opening of a generated script: a table of all fields, and a block that
begins with one variable for each field whose name looks like one.  Behind it the name of such a
field denotes its value.  Two things can spoil this: a name that the script language keeps for
itself cannot be declared, and a field of the name of the table hides the table from the fields
behind it.
-/

namespace Stencil

open Script
open Script.Lexer (IsVariable Lexes LexesFrom endsLiteral_cons isGap_blank)
open Script.Parser (stops)

namespace Spec

/-- The names that the header declares. -/
def declared (spec : Spec) : List String := spec.names.filter isIdentifier

theorem mem_declared {spec : Spec} {name : String} {v : Json} (h : spec.get? name = some v)
    (identifier : isIdentifier name = true) : name ∈ spec.declared :=
  List.mem_filter.2 ⟨Fields.mem_names_of_get? h, identifier⟩

/-! ## Tokens -/

def bindingTokens (name : String) : List Token :=
  [.word "let", .name name, .sign "=", .name "_spec", .sign "[", .text name, .sign "]", .sign ";"]

/-- The tokens of a block that declares the names and consists of `last`. -/
def blockTokens (names : List String) (last : String) : List Token :=
  .sign "\x7b" :: (names.flatMap bindingTokens ++ [.name last, .sign "\x7d"])

/-- The tokens of a table and of such a block behind it. -/
def embeddingTokens (table : Json) (names : List String) (last : String) : List Token :=
  .word "let" :: .name "_spec" :: .sign "=" ::
    (literalTokens table ++ .sign ";" :: blockTokens names last)

theorem isVariable_of_isIdentifier {name : String} (identifier : isIdentifier name = true)
    (proper : tokenOfWord name = .name name) : IsVariable name := by
  unfold isIdentifier at identifier
  cases chars : name.toList with
  | nil => simp [chars] at identifier
  | cons c r =>
    simp only [chars, Bool.and_eq_true] at identifier
    obtain ⟨⟨start, parts⟩, -⟩ := identifier
    have part : isNamePart c = true := by
      simp only [Bool.or_eq_true] at start
      rcases start with letter | mark
      · simp [isNamePart, Char.isAlphanum, letter]
      · simp [isNamePart, mark]
    refine ⟨by simpa [chars, isNameStart] using start, ?_, proper⟩
    rw [chars, List.all_cons, part, Bool.true_and]
    exact parts

theorem lexes_binding {name : String} (h : IsVariable name) (rest : List Char) :
    Lexes (binding name).toList (bindingTokens name) rest := by
  have space : Text.isBlank ' ' = true := by decide
  have table : IsVariable "_spec" := by decide
  have text : (binding name).toList = ("let " ++ name ++ " =").toList ++
      ((' ' :: "_spec".toList) ++ (['['] ++ ((Text.literal name).toList ++ ([']'] ++
        ([';'] ++ ['\n']))))) := by
    simp [binding]
  have row : bindingTokens name = [Token.word "let", .name name, .sign "="] ++
      ([Token.name "_spec"] ++ ([Token.sign "["] ++ ([Token.text name] ++ ([Token.sign "]"] ++
        ([Token.sign ";"] ++ []))))) := rfl
  rw [text, row]
  apply Lexes.append (Lexes.declaration h (.inl rfl))
  apply Lexes.append
    (Lexes.blank space (Lexes.variable_name table (Lexes.endsWord_cons (by decide))))
  apply Lexes.append Lexes.opening_bracket
  apply Lexes.append (Lexes.literal name (by simp))
  apply Lexes.append Lexes.closing_bracket
  exact Lexes.semicolon.append (Lexes.gap (isGap_blank (by decide)))

theorem length_bindingTokens (names : List String) :
    (names.flatMap bindingTokens).length = 8 * names.length := by
  induction names with
  | nil => rfl
  | cons name more ih =>
    rw [List.flatMap_cons, List.length_append, ih, List.length_cons, bindingTokens]
    simp only [List.length_cons, List.length_nil]
    omega

theorem lexes_bindings {names : List String} (h : ∀ name ∈ names, IsVariable name)
    (rest : List Char) :
    Lexes (String.join (names.map binding)).toList (names.flatMap bindingTokens) rest := by
  induction names with
  | nil => exact Lexes.nil
  | cons name more ih =>
    rw [List.map_cons, String.join_cons, String.toList_append, List.flatMap_cons]
    exact (lexes_binding (h name (by simp)) _).append
      (ih fun other ho => h other (List.mem_cons_of_mem _ ho))

theorem lexes_block {names : List String} {last : String} (h : IsVariable last)
    (proper : ∀ name ∈ names, IsVariable name) :
    Lexes (['\x7b', '\n'] ++ ((String.join (names.map binding)).toList ++
      (last.toList ++ ['\n', '\x7d', '\n']))) (blockTokens names last) [] := by
  have newline : Text.isBlank '\n' = true := by decide
  have row : blockTokens names last = [Token.sign "\x7b"] ++ ([] ++
      (names.flatMap bindingTokens ++ ([Token.name last] ++ ([Token.sign "\x7d"] ++ [])))) := by
    simp [blockTokens]
  have text : ['\x7b', '\n'] ++ ((String.join (names.map binding)).toList ++
      (last.toList ++ ['\n', '\x7d', '\n'])) = ['\x7b'] ++ (['\n'] ++
        ((String.join (names.map binding)).toList ++
          (last.toList ++ (('\n' :: ['\x7d']) ++ ['\n'])))) := by
    simp
  rw [text, row]
  apply Lexes.append Lexes.opening_brace
  apply Lexes.append (Lexes.gap (isGap_blank (by decide)))
  apply Lexes.append (lexes_bindings proper _)
  apply Lexes.append (Lexes.variable_name h (Lexes.endsWord_cons (by decide)))
  apply Lexes.append (Lexes.blank newline Lexes.closing_brace)
  exact Lexes.gap (isGap_blank (by decide))

theorem lexes_embedding {spec : Spec} {name : String} (h : IsVariable name)
    (proper : ∀ other ∈ spec.declared, IsVariable other)
    (numeric : spec.toJson.isNumeric = true) :
    LexesFrom false (spec.embeddingHeader ++ name ++ "\n\x7d\n").toList
      (embeddingTokens spec.toJson spec.declared name) [] := by
  have table : IsVariable "_spec" := by decide
  have text : (spec.embeddingHeader ++ name ++ "\n\x7d\n").toList =
      ("let " ++ "_spec" ++ " =").toList ++ ([' '] ++ ((literal spec.toJson).toList ++ ([';'] ++
        (['\n'] ++ (['\x7b', '\n'] ++ ((String.join (spec.declared.map binding)).toList ++
          (name.toList ++ ['\n', '\x7d', '\n']))))))) := by
    simp [embeddingHeader, declared]
  have row : embeddingTokens spec.toJson spec.declared name =
      [Token.word "let", .name "_spec", .sign "="] ++ ([] ++ (literalTokens spec.toJson ++
        ([Token.sign ";"] ++ ([] ++ blockTokens spec.declared name)))) := rfl
  rw [text, row]
  apply LexesFrom.append (Lexes.declaration table (.inl rfl) false)
  apply LexesFrom.append (Lexes.gap (isGap_blank (by decide)) false)
  apply LexesFrom.append (Lexer.lexes_literal spec.toJson numeric _ (endsLiteral_cons (by decide)))
  apply LexesFrom.append (Lexes.semicolon _)
  apply LexesFrom.append (Lexes.gap (isGap_blank (by decide)) _)
  exact lexes_block h proper _

/-! ## Statements -/

/-- The field of the table that has the name. -/
def part (name : String) (p q s : Pos) : Expr :=
  .chain (.variable "_spec" p) [.index (.const (.string name) q) s false]

/-- Statements that declare the names, each with its field of the table. -/
inductive Binds : List String → List Stmt → Prop
  | nil : Binds [] []
  | cons {names ss} (name : String) (p q s u : Pos) (behind : Binds names ss) :
      Binds (name :: names) (.declare name (part name p q s) false u :: ss)

/-- A script that declares the table and, in a block that consists of `last`, the names. -/
def Embeds (table : Value) (names : List String) (last : String) (body : List Stmt) : Prop :=
  ∃ e ss p q u, Denotes e table ∧ Binds names ss ∧
    body = [.declare "_spec" e false p, .block (ss ++ [.expr (.variable last u)]) q]

section

variable {names : List String} {last : String} {ss : List Stmt}

theorem Binds.simple (h : Binds names ss) (keep : Bool) :
    Simplify.prune false (Simplify.stmts keep ss) = ss := by
  have same : Simplify.stmts keep ss = ss ∧ ∀ s ∈ ss, Simplify.pureStmt s = false := by
    induction h with
    | nil => exact ⟨rfl, by simp⟩
    | cons name p q s u behind ih =>
      refine ⟨?_, List.forall_mem_cons.2 ⟨rfl, ih.2⟩⟩
      rw [Simplify.stmts, ih.1]
      rfl
  rw [same.1, Simplify.prune_eq_self false same.2]

/-- Nothing of the script is taken out: the values of all its variables are used. -/
theorem Embeds.simple {table : Value} {body : List Stmt} (h : Embeds table names last body) :
    Simplify.body body = body := by
  obtain ⟨e, ss, p, q, u, denotes, binds, rfl⟩ := h
  have block : Simplify.prune true (Simplify.stmts true (ss ++ [.expr (.variable last u)])) =
      ss ++ [.expr (.variable last u)] := by
    rw [Simplify.stmts_append]
    exact (Simplify.prune_append _ _).trans (by rw [binds.simple true]; rfl)
  simp [Simplify.body, Simplify.stmts, Simplify.stmt, Simplify.prune, Simplify.pureStmt,
    denotes.simple, block]

/-! ## Reading -/

open Parser in
theorem reads_binding {fuel : Nat} {a : Around} {name : String} {ts : List Token}
    (depth : a.depth < a.limit) :
    Reads (· = []) (statement (fuel + 11) a) (bindingTokens name ++ ts) ([.sign ";"] ++ ts)
      (fun s => (∃ p q i u, s = .declare name (part name p q i) false u) ∧
        Closes s [.sign ";"]) := by
  refine (reads_declaration (reads_index (by simp [stops]) depth)).mono ?_
  rintro _ ⟨_, u, ⟨p, q, i, rfl⟩, rfl⟩
  exact ⟨⟨p, q, i, u, rfl⟩, closes_declaration⟩

open Parser in
theorem reads_bindings {fuel : Nat} {a : Around} {t : Token} {ts : List Token} (acc : List Stmt)
    (enough : names.length + 12 ≤ fuel) (depth : a.depth < a.limit) :
    Reads (· = []) (statements fuel a acc)
      (names.flatMap bindingTokens ++ .name last :: .sign "\x7d" :: t :: ts) (t :: ts)
      (∃ ss u, · = acc.reverse ++ (ss ++ [.expr (.variable last u)]) ∧ Binds names ss) := by
  induction names generalizing fuel acc with
  | nil =>
    obtain ⟨k, rfl⟩ : ∃ k, fuel = k + 6 := ⟨fuel - 6, by simp at enough; omega⟩
    refine reads_statements_last (by simp) (by simp)
      ((reads_mention (by simp [stops]) rfl).mono ?_)
    rintro _ ⟨u, rfl⟩
    exact ⟨⟨[], u, by simp, .nil⟩, rfl⟩
  | cons name more ih =>
    rw [List.length_cons] at enough
    obtain ⟨k, rfl⟩ : ∃ k, fuel = k + 12 := ⟨fuel - 12, by omega⟩
    -- The row goes on by two tokens, of which the second may stand behind the last name.
    obtain ⟨u, v, vs, eq⟩ : ∃ u v vs,
        more.flatMap bindingTokens ++ .name last :: .sign "\x7d" :: t :: ts = u :: v :: vs := by
      cases more <;> exact ⟨_, _, _, rfl⟩
    rw [List.flatMap_cons, List.append_assoc, eq]
    refine reads_statements_cons (by simp) (by simp) (reads_binding depth) ?_
    rintro _ ⟨p, q, i, w, rfl⟩
    rw [← eq]
    refine (ih _ (by omega)).mono ?_
    rintro _ ⟨ss, x, rfl, binds⟩
    exact ⟨_ :: ss, x, by simp, .cons name p q i w binds⟩

open Parser in
theorem reads_last_block {fuel : Nat} {a : Around} {t : Token} {ts : List Token}
    (enough : names.length + 14 ≤ fuel) (depth : a.depth + 2 < a.limit) :
    Reads (· = []) (statement fuel a) (blockTokens names last ++ t :: ts) (t :: ts)
      (∃ ss q u, Binds names ss ∧ · = .block (ss ++ [.expr (.variable last u)]) q) := by
  obtain ⟨k, rfl⟩ : ∃ k, fuel = k + 2 := ⟨fuel - 2, by omega⟩
  have inside : Reads (· = []) (statements k (within { a with depth := a.depth + 1 }) [])
      (names.flatMap bindingTokens ++ .name last :: .sign "\x7d" :: t :: ts) (t :: ts)
      (∃ ss u, · = ss ++ [.expr (.variable last u)] ∧ Binds names ss) := by
    have read := @reads_bindings names last k (within { a with depth := a.depth + 1 }) t ts []
    simpa using read (by omega) (by simp [within]; omega)
  have row : blockTokens names last ++ t :: ts =
      .sign "\x7b" :: (names.flatMap bindingTokens ++ .name last :: .sign "\x7d" :: t :: ts) := by
    simp [blockTokens]
  rw [row, statement]
  refine Reads.bind Reads.peek fun p hp => ?_
  simp only [hp]
  refine Reads.bind (Reads.deeper (by omega)) ?_
  rintro _ rfl
  refine (reads_block (by simp; omega) (by simp) inside).mono ?_
  rintro _ ⟨_, q, ⟨ss, u, rfl, binds⟩, rfl⟩
  exact ⟨ss, q, u, binds, rfl⟩

open Parser in
theorem reads_embedding {fuel : Nat} {a : Around} {table : Json} (ordered : table.isOrdered = true)
    (enough : 4 * (literalTokens table).length + names.length + 20 ≤ fuel)
    (depth : a.depth + 2 < a.limit) (nested : a.depth + table.levels ≤ a.limit) :
    Reads (· = []) (script fuel a []) (embeddingTokens table names last ++ [.ended]) [.ended]
      (Embeds (Value.ofJson table) names last) := by
  obtain ⟨k, rfl⟩ : ∃ k, fuel = k + 4 := ⟨fuel - 4, by omega⟩
  obtain ⟨t, ts, literal_row, -, -⟩ := exists_first table
  obtain ⟨bs, block_row⟩ : ∃ bs, blockTokens names last ++ [.ended] = .sign "\x7b" :: bs := ⟨_, rfl⟩
  have value := @reads_literal (k + 1) a.inner (.sign ";") (.sign "\x7b" :: bs) table ordered
    (by omega) nested (by simp [stops])
  have block := @reads_last_block names last (k + 2) a .ended [] (by omega) depth
  rw [literal_row] at value
  rw [block_row] at block
  have first : Reads (· = []) (statement (k + 3) a)
      (.word "let" :: .name "_spec" :: .sign "=" :: (t :: ts ++ .sign ";" :: .sign "\x7b" :: bs))
      ([.sign ";"] ++ .sign "\x7b" :: bs)
      (fun s => (∃ e p, Denotes e (Value.ofJson table) ∧ s = .declare "_spec" e false p) ∧
        Closes s [.sign ";"]) := by
    refine (reads_declaration value).mono ?_
    rintro _ ⟨e, p, denotes, rfl⟩
    exact ⟨⟨e, p, denotes, rfl⟩, closes_declaration⟩
  have row : embeddingTokens table names last ++ [.ended] = .word "let" :: .name "_spec" ::
      .sign "=" :: (t :: ts ++ .sign ";" :: .sign "\x7b" :: bs) := by
    rw [embeddingTokens, literal_row, ← block_row]
    simp
  rw [row]
  refine reads_script_cons (by simp) (by simp) first ?_
  rintro _ ⟨e, p, denotes, rfl⟩
  refine reads_script_last (by simp) (block.mono ?_)
  rintro _ ⟨ss, q, u, binds, rfl⟩
  exact ⟨⟨e, ss, p, q, u, denotes, binds, rfl⟩, rfl⟩

/-! ## Evaluation -/

open Eval (Yields)

/-- The variables that the block begins with, in front of those around it. -/
def bound (table : Fields Value) (names : List String) (scope : List Binding) : List Binding :=
  names.foldl (fun scope name => ⟨name, (table.get? name).getD .unit, false⟩ :: scope) scope

theorem find?_bound {table : Fields Value} {name : String} {scope : List Binding}
    (h : name ∈ names ∨ scope.find? (·.name = name) =
      some ⟨name, (table.get? name).getD .unit, false⟩) :
    (bound table names scope).find? (·.name = name) =
      some ⟨name, (table.get? name).getD .unit, false⟩ := by
  induction names generalizing scope with
  | nil => simpa [bound] using h
  | cons first more ih =>
    refine ih ?_
    by_cases same : first = name
    · exact .inr (by simp [same])
    · rcases h with mem | found
      · exact .inl ((List.mem_cons.1 mem).resolve_left (Ne.symm same))
      · exact .inr (by rw [List.find?_cons_of_neg (by simpa using same), found])

/--
Every declaration finds the table, and thus the field that it names, as long as no declaration in
front of it has hidden the table.
-/
theorem yields_bindings {table : Fields Value} {scope : List Binding} {engine : Engine}
    {below : Below} {u : Pos} {v : Value} (unlimited : engine.limit = 0) (binds : Binds names ss)
    (in_sight : names ≠ [] →
      scope.find? (·.name = "_spec") = some ⟨"_spec", .map table, false⟩)
    (visible : "_spec" ∉ names.dropLast)
    (found : (bound table names scope).find? (·.name = last) = some ⟨last, v, false⟩)
    (plain : ∀ id, v ≠ .cell id) :
    Yields (Eval.stmts engine below (ss ++ [.expr (.variable last u)])) scope v
      (bound table names scope) := by
  induction binds generalizing scope with
  | nil =>
    rw [List.nil_append, Eval.stmts]
    exact Yields.bind (.tick unlimited) (.mention unlimited found plain)
  | @cons more ss name p q i w behind ih =>
    have declares : Yields (Eval.stmt engine below (.declare name (part name p q i) false w)) scope
        .unit (⟨name, (table.get? name).getD .unit, false⟩ :: scope) :=
      Yields.bind (.tick unlimited)
        (Yields.bind (.index unlimited (in_sight (by simp))) (Yields.bind .declare .pure))
    refine Yields.stmts_cons (by simp) declares (ih ?_ ?_ found)
    · intro filled
      have other : name ≠ "_spec" := by
        rintro rfl
        simp [List.dropLast_cons_of_ne_nil filled] at visible
      rw [List.find?_cons_of_neg (by simpa using other), in_sight (by simp)]
    · cases more with
      | nil => simp
      | cons next others =>
        rw [List.dropLast_cons_cons, List.mem_cons, not_or] at visible
        exact visible.2

theorem evaluate_embeds {table : Fields Value} {body : List Stmt} {v : Value}
    (h : Embeds (.map table) names last body) (visible : "_spec" ∉ names.dropLast)
    (mem : last ∈ names) (field : table.get? last = some v) (plain : ∀ id, v ≠ .cell id) :
    (Program.simplify ⟨[], body⟩).evaluate 0 = .done (.value v) := by
  have simple : Program.simplify ⟨[], body⟩ = ⟨[], body⟩ :=
    congrArg (Program.mk []) h.simple
  obtain ⟨e, ss, p, q, u, denotes, binds, rfl⟩ := h
  have found : (bound table names [⟨"_spec", .map table, false⟩]).find? (·.name = last) =
      some ⟨last, v, false⟩ := by
    rw [find?_bound (.inl mem), field]
    rfl
  let below : Below := Eval.script (Eval.engine []) Eval.levelLimit
  have declares : Yields (Eval.stmt (Eval.engine []) below (.declare "_spec" e false p)) [] .unit
      [⟨"_spec", .map table, false⟩] :=
    Yields.bind (.tick rfl) (Yields.bind (denotes.yields _ _ _ rfl) (Yields.bind .declare .pure))
  have inside := (@yields_bindings names last ss table _ (Eval.engine []) below u v rfl binds
    (fun _ => rfl) visible found plain).enclosed
  rw [simple]
  exact evaluate_of_yields
    (Yields.stmts_cons (by simp) declares (Yields.bind (.tick (p := q) rfl) inside))

end

/-! ## The header -/

theorem get?_ofFields (name : String) (fields : Fields Json) :
    Fields.get? name (Value.ofFields fields) = (fields.get? name).map Value.ofJson := by
  induction fields with
  | nil => rfl
  | cons field rest ih =>
    obtain ⟨n, v⟩ := field
    rw [Value.ofFields, Fields.get?, Fields.get?, ih]
    split <;> rfl

/--
Behind the header of a spec, the name of a field that can be a variable denotes the value of this
field.  The names of all fields that look like variables must be variables, and of these the one
that the table has may only be the last.
-/
theorem evaluate_embedding {spec : Spec} {name : String} {v : Json}
    (field : spec.get? name = some v) (identifier : isIdentifier name = true)
    (proper : ∀ other ∈ spec.declared, tokenOfWord other = .name other)
    (visible : "_spec" ∉ spec.declared.dropLast) (ordered : spec.toJson.isOrdered = true)
    (numeric : spec.toJson.isNumeric = true) (nested : spec.toJson.levels ≤ Parser.depthLimit) :
    ∃ program, parse (spec.embeddingHeader ++ name ++ "\n\x7d\n") = .ok program ∧
      program.simplify.evaluate 0 = .done (.value (Value.ofJson v)) := by
  have mem := mem_declared field identifier
  have usable : ∀ other ∈ spec.declared, IsVariable other := fun other ho =>
    isVariable_of_isIdentifier (List.mem_filter.1 ho).2 (proper other ho)
  have row := Lexer.tokens_of_lexes (lexes_embedding (usable name mem) usable numeric)
  have count := congrArg List.length row
  simp only [List.length_map, List.length_append, embeddingTokens, blockTokens,
    List.length_cons, length_bindingTokens] at count
  have reads := @reads_embedding spec.declared name
    (Parser.fuelFor (tokens (spec.embeddingHeader ++ name ++ "\n\x7d\n")))
    ⟨true, false, false, false, 0, Parser.depthLimit⟩ spec.toJson ordered
    (by simp only [Parser.fuelFor]; omega) (by decide) (by simpa using nested)
  obtain ⟨body, parsed, embeds⟩ := parse_of_reads row reads
  refine ⟨_, parsed, evaluate_embeds embeds visible mem ?_ (Eval.ofJson_ne_cell v)⟩
  rw [get?_ofFields, show spec.fields.get? name = some v from field]
  rfl

theorem evaluate_embedding_of_port :
    ∃ spec : Spec, spec = ⟨[("app", .object [("port", .integer 80)]), ("base-url", .null),
        ("tags", .array [.float 1.5, .string "é"])]⟩ ∧
      spec.get? "app" = some (.object [("port", .integer 80)]) ∧ isIdentifier "app" = true ∧
      (∀ other ∈ spec.declared, tokenOfWord other = .name other) ∧
      "_spec" ∉ spec.declared.dropLast ∧ spec.toJson.isOrdered = true ∧
      spec.toJson.isNumeric = true ∧ spec.toJson.levels ≤ Parser.depthLimit ∧
      ∃ program, parse (spec.embeddingHeader ++ "app" ++ "\n\x7d\n") = .ok program ∧
        program.simplify.evaluate 0 = .done (.value (.map [("port", .int 80)])) := by
  generalize same : (⟨[("app", .object [("port", .integer 80)]), ("base-url", .null),
    ("tags", .array [.float 1.5, .string "é"])]⟩ : Spec) = spec
  have field : spec.get? "app" = some (.object [("port", .integer 80)]) := by
    rw [← same]
    rfl
  have identifier : isIdentifier "app" = true := by decide
  have proper : ∀ other ∈ spec.declared, tokenOfWord other = .name other := by
    rw [← same]
    decide
  have visible : "_spec" ∉ spec.declared.dropLast := by
    rw [← same]
    decide
  have ordered : spec.toJson.isOrdered = true := by
    rw [← same]
    decide
  have nested : spec.toJson.levels ≤ Parser.depthLimit := by
    rw [← same]
    decide
  have numeric : spec.toJson.isNumeric = true := by
    rw [← same]
    decide +kernel
  exact ⟨spec, rfl, field, identifier, proper, visible, ordered, numeric, nested,
    evaluate_embedding field identifier proper visible ordered numeric nested⟩

/-- Whether a computation asks nothing and comes to the unit. -/
def givesUnit : Inquiry Ending → Bool
  | .done (.value .unit) => true
  | _ => false

theorem eq_of_givesUnit {q : Inquiry Ending} (h : givesUnit q = true) :
    q = .done (.value .unit) := by
  unfold givesUnit at h
  split at h
  · rfl
  · cases h

/-- A field of the name of the table hides the table: the other fields are looked up in it. -/
theorem evaluate_embedding_of_hidden_table :
    ∃ spec : Spec, spec = ⟨[("_spec", .object []), ("a", .integer 1)]⟩ ∧
      spec.get? "a" = some (.integer 1) ∧ isIdentifier "a" = true ∧
      spec.toJson.levels ≤ Parser.depthLimit ∧
      ∃ program, parse (spec.embeddingHeader ++ "a" ++ "\n\x7d\n") = .ok program ∧
        program.simplify.evaluate 0 = .done (.value .unit) ∧
        program.simplify.evaluate 0 ≠ .done (.value (Value.ofJson (.integer 1))) := by
  refine ⟨_, rfl, rfl, by decide, by decide, ?_⟩
  have result : (parse (embeddingHeader ⟨[("_spec", .object []), ("a", .integer 1)]⟩ ++ "a" ++
      "\n\x7d\n")).toOption.any (fun program => givesUnit (program.simplify.evaluate 0)) = true := by
    decide +kernel
  cases parsed : parse (embeddingHeader ⟨[("_spec", .object []), ("a", .integer 1)]⟩ ++ "a" ++
      "\n\x7d\n") with
  | error fault => simp [parsed, Except.toOption] at result
  | ok program =>
    rw [parsed] at result
    have unit := eq_of_givesUnit result
    have small : fitsInt 1 = true := by decide
    exact ⟨program, rfl, unit, by simp [unit, Value.ofJson, small]⟩

end Spec

end Stencil
