import Stencil.Proofs.Script.Numbers
import Stencil.Proofs.Script.Reading
import Stencil.Proofs.Script.Running

/-!
# Literals of values

The literal of a JSON value is an expression of a script, and the value of this expression is the one
that the JSON value stands for.  Its text lexes to a row of tokens that follows the value, the row is
read as one constant, array or map a value, and nothing of it is left to simplification.
-/

namespace Stencil

namespace Json

mutual

/-- How deep the arrays and objects of a value are nested. -/
def levels : Json → Nat
  | .array items => levelsOfItems items + 1
  | .object fields => levelsOfFields fields + 1
  | _ => 0

def levelsOfItems : List Json → Nat
  | [] => 0
  | v :: rest => max (levels v) (levelsOfItems rest)

def levelsOfFields : List (String × Json) → Nat
  | [] => 0
  | (_, v) :: rest => max (levels v) (levelsOfFields rest)

end

mutual

/--
Whether the numbers of a value are those that JSON has here: integers of 64 bits, with a sign or
without one, and doubles that are finite.
-/
def isNumeric : Json → Bool
  | .integer i => Script.fitsInt i || (0 ≤ i && i < 18446744073709551616)
  | .float x => Decimal.isFinite x
  | .array items => areNumeric items
  | .object fields => fieldsAreNumeric fields
  | _ => true

def areNumeric : List Json → Bool
  | [] => true
  | v :: rest => isNumeric v && areNumeric rest

def fieldsAreNumeric : List (String × Json) → Bool
  | [] => true
  | (_, v) :: rest => isNumeric v && fieldsAreNumeric rest

end

mutual

/-- Whether the fields of every object are increasing in their names. -/
def isOrdered : Json → Bool
  | .array items => areOrdered items
  | .object fields =>
    decide ((Fields.names fields).Pairwise (· < ·)) && fieldsAreOrdered fields
  | _ => true

def areOrdered : List Json → Bool
  | [] => true
  | v :: rest => isOrdered v && areOrdered rest

def fieldsAreOrdered : List (String × Json) → Bool
  | [] => true
  | (_, v) :: rest => isOrdered v && fieldsAreOrdered rest

end

end Json

namespace Script

/-! ## Tokens -/

mutual

def literalTokens : Json → List Token
  | .null => [.sign "()"]
  | .bool b => [.word (if b then "true" else "false")]
  | .integer i => [if fitsInt i then .int i else .float (Float.ofInt i)]
  | .float x => [.float x]
  | .string s => [.text s]
  | .array items => .sign "[" :: ([.sign ","].intercalate (itemTokens items) ++ [.sign "]"])
  | .object fields =>
    .sign "#\x7b" :: ([.sign ","].intercalate (fieldTokens fields) ++ [.sign "\x7d"])

def itemTokens : List Json → List (List Token)
  | [] => []
  | v :: rest => literalTokens v :: itemTokens rest

def fieldTokens : List (String × Json) → List (List Token)
  | [] => []
  | (n, v) :: rest => (.text n :: .sign ":" :: literalTokens v) :: fieldTokens rest

end

namespace Lexer

/-- Here a literal ends: nothing that follows prolongs its last token. -/
def EndsLiteral (rest : List Char) : Prop := EndsNumber rest ∧ rest.head? ≠ some '"'

theorem EndsLiteral.endsWord {rest : List Char} (h : EndsLiteral rest) : Lexes.EndsWord rest :=
  fun c hc => (h.1 c hc).1

theorem endsLiteral_cons {c : Char} {rest : List Char}
    (h : isNamePart c = false ∧ c ≠ '.' ∧ c ≠ '"') : EndsLiteral (c :: rest) := by
  refine ⟨fun d hd => ?_, by simp [h.2.2]⟩
  obtain rfl : c = d := by simpa using hd
  exact ⟨h.1, h.2.1⟩

/-- The text is read as the tokens where an operand is expected, whatever ends it. -/
def LexesOperand (text : String) (ts : List Token) : Prop :=
  ∀ rest, EndsLiteral rest → LexesFrom false text.toList ts rest

theorem lexesOperand_cons {text : String} {texts : List String} {ts : List Token}
    {rows : List (List Token)} (same : texts.length = rows.length) (first : LexesOperand text ts)
    (others : LexesOperand (String.intercalate ", " texts) ([.sign ","].intercalate rows)) :
    LexesOperand (String.intercalate ", " (text :: texts))
      ([.sign ","].intercalate (ts :: rows)) := by
  intro rest ends
  match texts, rows with
  | [], [] => simpa using first rest ends
  | next :: more, row :: others' =>
    rw [String.intercalate_cons_cons, List.intercalate_cons_cons, String.toList_append,
      String.toList_append, List.append_assoc, List.append_assoc]
    have separator : Lexes ", ".toList [.sign ","]
        ((String.intercalate ", " (next :: more)).toList ++ rest) :=
      Lexes.comma.append (Lexes.gap (isGap_blank (by decide)))
    exact (first _ (endsLiteral_cons (by decide))).append
      ((separator _).append (others rest ends))

theorem lexesOperand_field {name text : String} {ts : List Token} (h : LexesOperand text ts) :
    LexesOperand (Text.literal name ++ ": " ++ text) (.text name :: .sign ":" :: ts) := by
  intro rest ends
  have parts : (Text.literal name ++ ": " ++ text).toList =
      (Text.literal name).toList ++ ([':'] ++ ([' '] ++ text.toList)) := by
    simp
  have space : Lexes [' '] [] (text.toList ++ rest) := Lexes.gap (isGap_blank (by decide))
  have key : LexesFrom false (Text.literal name).toList [.text name]
      ([':'] ++ ([' '] ++ text.toList) ++ rest) :=
    Lexes.literal name (by simp) false
  have mark : LexesFrom true [':'] [.sign ":"] ([' '] ++ text.toList ++ rest) := Lexes.colon true
  rw [parts]
  exact key.append (mark.append ((space false).append (h rest ends)))

theorem length_literalItems (items : List Json) :
    (literalItems items).length = (itemTokens items).length := by
  induction items with
  | nil => rfl
  | cons v rest ih => simp [literalItems, itemTokens, ih]

theorem length_literalFields (fields : List (String × Json)) :
    (literalFields fields).length = (fieldTokens fields).length := by
  induction fields with
  | nil => rfl
  | cons field rest ih => simp [literalFields, fieldTokens, ih]

theorem isFinite_of_isNumeric {i : Int} (fits : ¬ fitsInt i = true)
    (numeric : (Json.integer i).isNumeric = true) : Decimal.isFinite (Float.ofInt i) = true := by
  rw [Json.isNumeric, Bool.or_eq_true, Bool.and_eq_true, decide_eq_true_eq, decide_eq_true_eq]
    at numeric
  obtain ⟨low, high⟩ := numeric.resolve_left fits
  rw [fitsInt, Bool.and_eq_true, decide_eq_true_eq, decide_eq_true_eq, minInt, maxInt] at fits
  exact Decimal.isFinite_ofInt (by omega) (by omega)

mutual

theorem lexes_literal (v : Json) (numeric : v.isNumeric = true) :
    LexesOperand (literal v) (literalTokens v) := by
  intro rest ends
  cases v with
  | null => exact Lexes.empty_parentheses false
  | bool b =>
    cases b with
    | false => exact Lexes.keyword (by decide) ends.endsWord false
    | true => exact Lexes.keyword (by decide) ends.endsWord false
  | integer i =>
    rw [literal, literalTokens]
    by_cases fits : fitsInt i = true
    · rw [if_pos fits, if_pos fits]
      exact lexes_int fits ends.1
    · rw [if_neg fits, if_neg fits]
      exact lexes_float (isFinite_of_isNumeric fits numeric) ends.1
  | float x => exact lexes_float numeric ends.1
  | string s => exact Lexes.literal s ends.2 false
  | array items =>
    have inside := lexes_items items numeric (']' :: rest) (endsLiteral_cons (by decide))
    have text : (literal (.array items)).toList =
        ['['] ++ ((String.intercalate ", " (literalItems items)).toList ++ [']']) := by
      simp [literal]
    rw [text]
    exact (Lexes.opening_bracket false).append (inside.append (Lexes.closing_bracket _))
  | object fields =>
    have inside := lexes_fields fields numeric ('\x7d' :: rest) (endsLiteral_cons (by decide))
    have text : (literal (.object fields)).toList =
        ['#', '\x7b'] ++ ((String.intercalate ", " (literalFields fields)).toList ++ ['\x7d']) := by
      simp [literal]
    rw [text]
    exact (Lexes.opening_map false).append (inside.append (Lexes.closing_brace _))

theorem lexes_items (items : List Json) (numeric : Json.areNumeric items = true) :
    LexesOperand (String.intercalate ", " (literalItems items))
      ([.sign ","].intercalate (itemTokens items)) := by
  cases items with
  | nil => exact fun rest _ => Lexes.nil false
  | cons v more =>
    rw [Json.areNumeric, Bool.and_eq_true] at numeric
    exact lexesOperand_cons (length_literalItems more) (lexes_literal v numeric.1)
      (lexes_items more numeric.2)

theorem lexes_fields (fields : List (String × Json))
    (numeric : Json.fieldsAreNumeric fields = true) :
    LexesOperand (String.intercalate ", " (literalFields fields))
      ([.sign ","].intercalate (fieldTokens fields)) := by
  cases fields with
  | nil => exact fun rest _ => Lexes.nil false
  | cons field more =>
    obtain ⟨name, v⟩ := field
    rw [Json.fieldsAreNumeric, Bool.and_eq_true] at numeric
    exact lexesOperand_cons (length_literalFields more)
      (lexesOperand_field (lexes_literal v numeric.1)) (lexes_fields more numeric.2)

end

end Lexer

/-! ## Evaluation -/

open Eval (Yields)

/-- Simplification leaves the expression as it is, and wherever it stands it has the value `v`. -/
structure Denotes (e : Expr) (v : Value) : Prop where
  simple : Simplify.expr e = e
  yields : ∀ engine below scope, engine.limit = 0 →
    Yields (Eval.expr engine below e) scope v scope

structure DenoteItems (es : List Expr) (vs : List Value) : Prop where
  simple : Simplify.exprs es = es
  yields : ∀ engine below scope, engine.limit = 0 →
    Yields (Eval.exprs engine below es) scope vs scope

structure DenoteFields (fs : List Field) (vs : List (String × Value)) : Prop where
  simple : Simplify.fields fs = fs
  yields : ∀ engine below scope, engine.limit = 0 →
    Yields (Eval.fields engine below fs) scope vs scope

section

variable {e : Expr} {es : List Expr} {fs : List Field} {v : Value} {vs : List Value}
  {fields : List (String × Value)} {name : String} {p : Pos}

theorem denotes_const : Denotes (.const v p) v :=
  ⟨rfl, fun _ _ _ unlimited => Yields.bind (.tick unlimited) .pure⟩

theorem denoteItems_nil : DenoteItems [] [] := ⟨rfl, fun _ _ _ _ => .ok⟩

theorem denoteItems_cons (first : Denotes e v) (others : DenoteItems es vs) :
    DenoteItems (e :: es) (v :: vs) where
  simple := by rw [Simplify.exprs, first.simple, others.simple]
  yields engine below scope unlimited :=
    Yields.bind (first.yields engine below scope unlimited)
      (Yields.bind (others.yields engine below scope unlimited) .pure)

theorem denotes_array (h : DenoteItems es vs) : Denotes (.array es p) (.array vs) where
  simple := by rw [Simplify.expr, h.simple]
  yields engine below scope unlimited :=
    Yields.bind (.tick unlimited) (Yields.bind (h.yields engine below scope unlimited) .pure)

theorem denoteFields_nil : DenoteFields [] [] := ⟨rfl, fun _ _ _ _ => .ok⟩

theorem denoteFields_cons (first : Denotes e v) (others : DenoteFields fs fields) :
    DenoteFields (.mk name e :: fs) ((name, v) :: fields) where
  simple := by rw [Simplify.fields, first.simple, others.simple]
  yields engine below scope unlimited :=
    Yields.bind (first.yields engine below scope unlimited)
      (Yields.bind (others.yields engine below scope unlimited) .pure)

theorem denotes_map (h : DenoteFields fs fields) :
    Denotes (.map fs p) (.map (Fields.ofList fields)) where
  simple := by rw [Simplify.expr, h.simple]
  yields engine below scope unlimited :=
    Yields.bind (.tick unlimited) (Yields.bind (h.yields engine below scope unlimited) .pure)

end

/-! ## Reading -/

namespace Parser

theorem exists_first (v : Json) : ∃ t ts, literalTokens v = t :: ts ∧
    t ≠ .sign "]" ∧ t ≠ .ended := by
  cases v with
  | integer i =>
    rw [literalTokens]
    split <;> exact ⟨_, _, rfl, by simp, by simp⟩
  | _ => exact ⟨_, _, rfl, by simp, by simp⟩

theorem exists_cons_before (row : List Token) (t : Token) (ts : List Token) :
    ∃ u us, row ++ t :: ts = u :: us := by
  cases row <;> exact ⟨_, _, rfl⟩

theorem names_ofFields (fields : List (String × Json)) :
    Fields.names (Value.ofFields fields) = Fields.names fields := by
  induction fields with
  | nil => rfl
  | cons field rest ih => exact congrArg (field.1 :: ·) ih

theorem isNew_cons {name : String} {e : Expr} {acc : List Field} {v : Json}
    {fields : List (String × Json)} (before : ∀ other ∈ Fields.names fields, name < other)
    (new : ∀ other ∈ Fields.names ((name, v) :: fields), IsNew other acc) :
    ∀ other ∈ Fields.names fields, IsNew other (.mk name e :: acc) := by
  intro other ho
  have ne : name ≠ other := by
    rintro rfl
    exact String.lt_irrefl name (before name ho)
  have old := new other (List.mem_cons_of_mem _ ho)
  simp only [IsNew, List.any_cons, Bool.or_eq_false_iff, decide_eq_false_iff_not]
  exact ⟨ne, old⟩

mutual

theorem reads_literal {fuel : Nat} {a : Around} {t : Token} {ts : List Token} (v : Json)
    (ordered : v.isOrdered = true)
    (enough : 4 * (literalTokens v).length + 4 ≤ fuel) (depth : a.depth + v.levels ≤ a.limit)
    (ht : t ∈ stops) :
    Reads (· = []) (expression fuel a) (literalTokens v ++ t :: ts) (t :: ts)
      (Denotes · (Value.ofJson v)) := by
  obtain ⟨k, rfl⟩ : ∃ k, fuel = k + 4 := ⟨fuel - 4, by omega⟩
  have scalar {u : Token} (hu : constant? u = some (Value.ofJson v)) :
      Reads (· = []) (expression (k + 4) a) (u :: t :: ts) (t :: ts) (Denotes · (Value.ofJson v)) := by
    refine (reads_constant hu ht).mono ?_
    rintro e ⟨p, rfl⟩
    exact denotes_const
  cases v with
  | null => exact scalar rfl
  | bool b => cases b <;> exact scalar rfl
  | integer i =>
    rw [literalTokens]
    refine scalar ?_
    by_cases fits : fitsInt i = true
    · simp only [Value.ofJson, fits, if_true, constant?]
    · simp only [Value.ofJson, fits, Bool.false_eq_true, if_false, constant?]
  | float x => exact scalar rfl
  | string s => exact scalar rfl
  | array items =>
    simp only [literalTokens, List.length_cons, List.length_append] at enough
    rw [Json.levels] at depth
    obtain ⟨w, ws, first⟩ := exists_cons_before ([.sign ","].intercalate (itemTokens items))
      (.sign "]") (t :: ts)
    have inside := @reads_items (k + 1) { a.inner with depth := a.depth + 1 } t ts items [] ordered
      (by omega) (by simp [Around.inner]; omega)
    rw [literalTokens, List.cons_append, List.append_assoc, List.singleton_append, first]
    rw [first] at inside
    refine reads_array ht (by omega) inside ?_
    rintro _ p ⟨es, rfl, denote⟩
    exact denotes_array denote
  | object fields =>
    simp only [literalTokens, List.length_cons, List.length_append] at enough
    rw [Json.levels] at depth
    rw [Json.isOrdered, Bool.and_eq_true, decide_eq_true_eq] at ordered
    obtain ⟨w, ws, first⟩ := exists_cons_before ([.sign ","].intercalate (fieldTokens fields))
      (.sign "\x7d") (t :: ts)
    have inside := @reads_fields (k + 1) { a.inner with depth := a.depth + 1 } t ts fields []
      ordered.1 (by simp [IsNew]) ordered.2 (by omega) (by simp [Around.inner]; omega)
    rw [literalTokens, List.cons_append, List.append_assoc, List.singleton_append, first]
    rw [first] at inside
    refine reads_map ht (by omega) inside ?_
    rintro _ p ⟨fs, rfl, denote⟩
    have map := denotes_map (p := p) denote
    rwa [Fields.ofList_eq_self (by rw [names_ofFields]; exact ordered.1)] at map

theorem reads_items {fuel : Nat} {a : Around} {u : Token} {us : List Token} (items : List Json)
    (acc : List Expr) (ordered : Json.areOrdered items = true)
    (enough : 4 * ([.sign ","].intercalate (itemTokens items)).length + 6 ≤ fuel)
    (depth : a.depth + Json.levelsOfItems items ≤ a.limit) :
    Reads (· = []) (Parser.items fuel a acc)
      ([.sign ","].intercalate (itemTokens items) ++ .sign "]" :: u :: us) (u :: us)
      (∃ es, · = acc.reverse ++ es ∧ DenoteItems es (Value.ofItems items)) := by
  obtain ⟨k, rfl⟩ : ∃ k, fuel = k + 1 := ⟨fuel - 1, by omega⟩
  cases items with
  | nil => exact reads_items_nil ⟨[], by simp, denoteItems_nil⟩
  | cons v rest =>
    obtain ⟨t, ts, first, bracket, ended⟩ := exists_first v
    rw [Json.areOrdered, Bool.and_eq_true] at ordered
    rw [Json.levelsOfItems] at depth
    cases rest with
    | nil =>
      simp only [itemTokens, List.intercalate_singleton] at enough ⊢
      have item := @reads_literal k a (.sign "]") (u :: us) v ordered.1 (by omega) (by omega)
        (by simp [stops])
      rw [first, List.cons_append] at item ⊢
      exact reads_items_last bracket ended item fun e he =>
        ⟨[e], by simp, denoteItems_cons he denoteItems_nil⟩
    | cons w more =>
      obtain ⟨z, zs, next⟩ := exists_cons_before ([.sign ","].intercalate (itemTokens (w :: more)))
        (.sign "]") (u :: us)
      have row : [.sign ","].intercalate (itemTokens (v :: w :: more)) =
          literalTokens v ++ .sign "," :: [.sign ","].intercalate (itemTokens (w :: more)) := by
        simp [itemTokens, List.intercalate_cons_cons]
      rw [row] at enough ⊢
      simp only [List.length_append, List.length_cons] at enough
      have item := @reads_literal k a (.sign ",") (z :: zs) v ordered.1 (by omega) (by omega)
        (by simp [stops])
      rw [List.append_assoc, List.cons_append, next]
      rw [first, List.cons_append] at item ⊢
      refine reads_items_cons bracket ended item fun e he => ?_
      have others := @reads_items k a u us (w :: more) (e :: acc) ordered.2 (by omega) (by omega)
      rw [next] at others
      refine others.mono ?_
      rintro _ ⟨es, rfl, denote⟩
      exact ⟨e :: es, by simp, denoteItems_cons he denote⟩

theorem reads_fields {fuel : Nat} {a : Around} {u : Token} {us : List Token}
    (fields : List (String × Json)) (acc : List Field)
    (names : (Fields.names fields).Pairwise (· < ·))
    (new : ∀ name ∈ Fields.names fields, IsNew name acc)
    (ordered : Json.fieldsAreOrdered fields = true)
    (enough : 4 * ([.sign ","].intercalate (fieldTokens fields)).length + 6 ≤ fuel)
    (depth : a.depth + Json.levelsOfFields fields ≤ a.limit) :
    Reads (· = []) (Parser.fields fuel a acc)
      ([.sign ","].intercalate (fieldTokens fields) ++ .sign "\x7d" :: u :: us) (u :: us)
      (∃ fs, · = acc.reverse ++ fs ∧ DenoteFields fs (Value.ofFields fields)) := by
  obtain ⟨k, rfl⟩ : ∃ k, fuel = k + 1 := ⟨fuel - 1, by omega⟩
  cases fields with
  | nil => exact reads_fields_nil ⟨[], by simp, denoteFields_nil⟩
  | cons field rest =>
    obtain ⟨name, v⟩ := field
    obtain ⟨t, ts, first, -, -⟩ := exists_first v
    rw [Json.fieldsAreOrdered, Bool.and_eq_true] at ordered
    rw [Json.levelsOfFields] at depth
    have fresh : IsNew name acc := new name (by simp [Fields.names])
    cases rest with
    | nil =>
      simp only [fieldTokens, List.intercalate_singleton, List.length_cons] at enough ⊢
      have value := @reads_literal k a (.sign "\x7d") (u :: us) v ordered.1 (by omega) (by omega)
        (by simp [stops])
      rw [List.cons_append, List.cons_append]
      rw [first, List.cons_append] at value ⊢
      exact reads_fields_last fresh value fun e he =>
        ⟨[.mk name e], by simp, denoteFields_cons he denoteFields_nil⟩
    | cons other more =>
      obtain ⟨z, zs, next⟩ := exists_cons_before
        ([.sign ","].intercalate (fieldTokens (other :: more))) (.sign "\x7d") (u :: us)
      have row : [.sign ","].intercalate (fieldTokens ((name, v) :: other :: more)) =
          .text name :: .sign ":" :: (literalTokens v ++
            .sign "," :: [.sign ","].intercalate (fieldTokens (other :: more))) := by
        simp [fieldTokens, List.intercalate_cons_cons]
      rw [row] at enough ⊢
      simp only [List.length_append, List.length_cons] at enough
      have value := @reads_literal k a (.sign ",") (z :: zs) v ordered.1 (by omega) (by omega)
        (by simp [stops])
      rw [List.cons_append, List.cons_append, List.append_assoc, List.cons_append, next]
      rw [first, List.cons_append] at value ⊢
      rw [Fields.names, List.map_cons, List.pairwise_cons] at names
      refine reads_fields_cons fresh value fun e he => ?_
      have others := @reads_fields k a u us (other :: more) (.mk name e :: acc) names.2
        (isNew_cons names.1 new) ordered.2 (by omega) (by omega)
      rw [next] at others
      refine others.mono ?_
      rintro _ ⟨fs, rfl, denote⟩
      exact ⟨.mk name e :: fs, by simp, denoteFields_cons he denote⟩

end

end Parser

/-! ## Whole literals -/

theorem evaluate_of_yields {engine : Engine} {body : List Stmt} {scope scope' : List Binding}
    {v : Value} (h : Yields (Eval.script engine (Eval.levelLimit + 1) body) scope v scope') :
    evaluate engine body scope = .done (.value v) := by
  obtain ⟨n, hn⟩ := h (Machine.start scope) rfl
  rw [evaluate, hn]
  rfl

theorem evaluate_expression {e : Expr} {v : Value} (h : Denotes e v) {engine : Engine}
    (scope : List Binding) (unlimited : engine.limit = 0) :
    evaluate engine [.expr (Simplify.expr e)] scope = .done (.value v) := by
  refine evaluate_of_yields (show Yields _ scope v scope from ?_)
  rw [h.simple]
  exact Yields.bind (.tick unlimited) (h.yields engine _ scope unlimited)

theorem tokens_literal {v : Json} (numeric : v.isNumeric = true) :
    (tokens (literal v)).map (·.token) = literalTokens v ++ [.ended] :=
  Lexer.tokens_of_lexes (Lexer.lexes_literal v numeric [] ⟨by simp [Lexer.EndsNumber], by simp⟩)

/--
The literal of a value is an expression, and evaluates to the value that the script language has for
it: an integer to an integer, a whole number that is too large for one to a double, null to the unit,
and strings, arrays and maps to themselves.  It must not be nested deeper than expressions may be.
-/
theorem evaluate_literal {v : Json} (ordered : v.isOrdered = true) (numeric : v.isNumeric = true)
    (nested : v.levels ≤ Parser.depthLimit) :
    ∃ e, parseExpression (literal v) = .ok (e, []) ∧
      ∀ engine scope, engine.limit = 0 →
        evaluate engine [.expr (Simplify.expr e)] scope = .done (.value (Value.ofJson v)) := by
  have tokens_eq := tokens_literal numeric
  have count : (tokens (literal v)).length = (literalTokens v).length + 1 := by
    simpa using congrArg List.length tokens_eq
  let around : Around := ⟨true, false, false, false, 0, Parser.depthLimit⟩
  have literal_reads := @Parser.reads_literal (Parser.fuelFor (tokens (literal v))) around.inner
    .ended [] v ordered (by simp only [Parser.fuelFor]; omega)
    (by simpa [around, Around.inner] using nested) (by simp [Parser.stops])
  have reads : Reads (· = []) (do
      let e ← Parser.expression (Parser.fuelFor (tokens (literal v))) around.inner
      let q ← Reader.peek
      if q.token = .ended then return e
      else Reader.refuse ("Unexpected '" ++ q.token.spelling ++ "'") q)
      (literalTokens v ++ [.ended]) [.ended] (Denotes · (Value.ofJson v)) := by
    refine Reads.bind literal_reads fun e he => Reads.bind Reads.peek fun q hq => ?_
    simp only [hq, if_true]
    exact Reads.pure he
  obtain ⟨e, r, run, denotes, calm, -⟩ :=
    reads ⟨tokens (literal v), [], [], []⟩ ⟨by simp, rfl⟩ tokens_eq
  refine ⟨e, ?_, fun engine scope unlimited => evaluate_expression denotes scope unlimited⟩
  refine (congrArg (Except.bind · fun read => .ok (read.1, read.2.functions.reverse)) run).trans ?_
  simp only [Except.bind, calm.functions, List.reverse_nil]

theorem evaluate_literal_of_row :
    ∃ v : Json, v = .object [("a", .array [.null, .integer (-9223372036854775808), .float 1.5,
        .integer 18446744073709551615, .string "é\"\n"]), ("b", .object [])] ∧
      v.isOrdered = true ∧ v.isNumeric = true ∧ v.levels ≤ Parser.depthLimit ∧
      ∃ e, parseExpression (literal v) = .ok (e, []) ∧
        ∀ engine scope, engine.limit = 0 →
          evaluate engine [.expr (Simplify.expr e)] scope = .done (.value (.map [("a", .array
            [.unit, .int (-9223372036854775808), .float 1.5, .float 18446744073709551616.0,
              .string "é\"\n"]), ("b", .map [])])) := by
  generalize same : Json.object [("a", .array [.null, .integer (-9223372036854775808), .float 1.5,
    .integer 18446744073709551615, .string "é\"\n"]), ("b", .object [])] = v
  have ordered : v.isOrdered = true := by
    rw [← same]
    decide
  have nested : v.levels ≤ Parser.depthLimit := by
    rw [← same]
    decide
  have numeric : v.isNumeric = true := by
    rw [← same]
    decide +kernel
  have value : Value.ofJson v = .map [("a", .array
      [.unit, .int (-9223372036854775808), .float 1.5, .float 18446744073709551616.0,
        .string "é\"\n"]), ("b", .map [])] := by
    have small : fitsInt (-9223372036854775808) = true := by decide
    have large : fitsInt 18446744073709551615 = false := by decide
    have nearest : Float.ofInt 18446744073709551615 = 18446744073709551616.0 := by decide +kernel
    simp only [← same, Value.ofJson, Value.ofItems, Value.ofFields, small, large, nearest, if_true,
      Bool.false_eq_true, if_false]
  have evaluates := evaluate_literal ordered numeric nested
  rw [value] at evaluates
  exact ⟨v, rfl, ordered, numeric, nested, evaluates⟩

end Script

end Stencil
