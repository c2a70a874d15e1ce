import Stencil.Proofs.Embedding
import Stencil.Proofs.Script.Settling
import Stencil.Proofs.Script.Splicing.Operands

/-!
# Paths of properties

A field of a spec and keys behind it, with dots between them, are read as a chain of properties.
Where what the keys meet are objects, the chain leads through the converted value as the keys lead
through the data: a last key that is absent gives the unit, and an earlier one a fault.
-/

namespace Stencil

/-- What a path of keys leads to, if every step is a field of an object. -/
def Json.at? (v : Json) : List String → Option Json
  | [] => some v
  | key :: rest => (v.field? key).bind (Json.at? · rest)

theorem Spec.view?_eq (spec : Spec) (name : String) (keys : List String) :
    spec.view? name keys = (spec.get? name).bind (Json.at? · keys) := by
  rw [Spec.view?]
  generalize spec.get? name = x
  induction keys generalizing x with
  | nil => cases x <;> rfl
  | cons key rest ih =>
    rw [List.foldl_cons, ih]
    cases x <;> rfl

namespace Script

/-- The text of a name and the keys behind it. -/
def pathText (name : String) (keys : List String) : String :=
  name ++ String.join (keys.map ("." ++ ·))

def keyTokens (keys : List String) : List Token :=
  keys.flatMap fun key => [.sign ".", .name key]

theorem length_keyTokens (keys : List String) : (keyTokens keys).length = 2 * keys.length := by
  induction keys with
  | nil => rfl
  | cons key more ih =>
    rw [keyTokens, List.flatMap_cons, ← keyTokens, List.length_append, ih, List.length_cons,
      List.length_cons, List.length_cons, List.length_nil]
    omega

def pathTokens (name : String) (keys : List String) : List Token := .name name :: keyTokens keys

/-- The chain of properties that a path is read as, but for places. -/
def pathExpr (name : String) (keys : List String) : Expr :=
  .chain (.variable name Pos.start) (keys.map (.property · Pos.start false))

theorem plainSteps_keys (known : String → Bool) (keys : List String) :
    plainSteps known (keys.map (.property · Pos.start false)) = true := by
  induction keys with
  | nil => rfl
  | cons key more ih => exact ih

theorem isPlain_pathExpr {known : String → Bool} {name : String} (h : known name = true)
    (keys : List String) : (pathExpr name keys).isPlain known = true := by
  rw [pathExpr, Expr.isPlain, Expr.isPlain, h, plainSteps_keys]
  rfl

/-! ## Values -/

section

variable {names : Names} {name : String} {keys : List String} {v : Json}

theorem accesses?_keys (keys : List String) :
    accesses? names (keys.map (.property · Pos.start false)) =
      some (keys.map (.property · Pos.start false)) := by
  induction keys with
  | nil => rfl
  | cons key more ih => rw [List.map_cons, accesses?, ih, Option.map_some, List.map_cons]

theorem value?_pathExpr (name : String) (keys : List String) :
    (pathExpr name keys).value? names =
      ((names name).map Value.ofJson).bind (reach? (keys.map (.property · Pos.start false))) := by
  rw [pathExpr, Expr.value?, accesses?_keys]
  rfl

/-- The unit has no properties. -/
theorem reach?_unit (filled : keys ≠ []) :
    reach? (keys.map (.property · Pos.start false)) .unit = none := by
  obtain ⟨key, more, rfl⟩ := List.exists_cons_of_ne_nil filled
  rfl

theorem readProperty_ofJson (fields : List (String × Json)) (key : String) :
    (Value.ofJson (.object fields)).readProperty key =
      .ok ((((Json.object fields).field? key).map Value.ofJson).getD .unit) := by
  rw [Json.field?, ← Spec.get?_ofFields]
  rfl

theorem reach?_property (key : String) (rest : List Access) (w : Value) :
    reach? (.property key Pos.start false :: rest) w =
      (w.readProperty key).toOption.bind (reach? rest) := by
  rw [reach?.eq_def]
  rfl

/--
Through objects, properties lead where the keys lead, to the unit if only the last key is absent, and
nowhere if an earlier one is.
-/
theorem reach?_ofJson
    (objects : ∀ n < keys.length, ∀ w, v.at? (keys.take n) = some w → ∃ fields, w = .object fields) :
    reach? (keys.map (.property · Pos.start false)) (Value.ofJson v) =
      match v.at? keys with
      | some w => some (Value.ofJson w)
      | none => if (v.at? keys.dropLast).isSome then some .unit else none := by
  induction keys generalizing v with
  | nil => rfl
  | cons key more ih =>
    obtain ⟨fields, rfl⟩ := objects 0 (by simp) v rfl
    rw [List.map_cons, reach?_property, readProperty_ofJson, Json.at?]
    cases found : (Json.object fields).field? key with
    | some w =>
      have inside : ∀ n < more.length, ∀ x, w.at? (more.take n) = some x →
          ∃ fields, x = .object fields := by
        intro n hn x hx
        apply objects (n + 1) (by simpa using hn)
        rw [List.take_succ_cons, Json.at?, found]
        exact hx
      cases more with
      | nil => rfl
      | cons next others =>
        rw [List.dropLast_cons_cons, Json.at?, found]
        exact ih inside
    | none =>
      cases more with
      | nil => rfl
      | cons next others =>
        rw [List.dropLast_cons_cons, Json.at?, found]
        exact reach?_unit (List.cons_ne_nil next others)

end

/-! ## Tokens -/

section

open Lexer (IsVariable IsTerminated tokensOf Lexes)
open Lexer.Lexes (EndsWord endsWord_cons)

variable {name : String} {keys : List String} {rest : List Char}

theorem exists_first_char (h : IsVariable name) :
    ∃ c, name.toList.head? = some c ∧ isNameStart c = true := by
  have start := h.start
  cases chars : name.toList with
  | nil => simp [chars] at start
  | cons c more => exact ⟨c, rfl, by simpa [chars] using start⟩

theorem endsWord_keys (behind : EndsWord rest) (keys : List String) :
    EndsWord ((String.join (keys.map ("." ++ ·))).toList ++ rest) := by
  cases keys with
  | nil => exact behind
  | cons key more =>
    rw [List.map_cons, String.join_cons, String.toList_append, String.toList_append]
    exact endsWord_cons (by decide)

theorem isNamePart_of_mem_pathText (words : ∀ n ∈ name :: keys, IsVariable n) {c : Char}
    (hc : c ∈ (pathText name keys).toList) : isNamePart c = true ∨ c = '.' := by
  have part (n : String) (hn : n ∈ name :: keys) (h : c ∈ n.toList) : isNamePart c = true :=
    List.all_eq_true.1 (words n hn).parts c h
  rw [pathText, String.toList_append, List.mem_append] at hc
  rcases hc with here | behind
  · exact .inl (part name List.mem_cons_self here)
  · simp only [String.toList_join, List.mem_flatMap, List.mem_map] at behind
    obtain ⟨_, ⟨key, hk, rfl⟩, inside⟩ := behind
    rw [String.toList_append, List.mem_append] at inside
    rcases inside with dot | inside
    · exact .inr (by simpa using dot)
    · exact .inl (part key (List.mem_cons_of_mem name hk) inside)

theorem lexes_keys (words : ∀ key ∈ keys, IsVariable key) (behind : EndsWord rest) :
    Lexes (String.join (keys.map ("." ++ ·))).toList (keyTokens keys) rest := by
  induction keys with
  | nil => exact Lexes.nil
  | cons key more ih =>
    have parts : (String.join ((key :: more).map ("." ++ ·))).toList =
        ['.'] ++ (key.toList ++ (String.join (more.map ("." ++ ·))).toList) := by
      simp
    have later := ih fun other ho => words other (List.mem_cons_of_mem key ho)
    have here := words key List.mem_cons_self
    obtain ⟨c, first, start⟩ := exists_first_char here
    have range : c ≠ '.' := Lexes.ne_of_isNameStart start (by decide)
    rw [parts]
    apply Lexes.append (Lexes.dot (c := c) (by simp [List.head?_append, first]) range)
    exact Lexes.append (Lexes.variable_name here (endsWord_keys behind more)) later

theorem lexes_path (words : ∀ n ∈ name :: keys, IsVariable n) (behind : EndsWord rest) :
    Lexes (pathText name keys).toList (pathTokens name keys) rest := by
  have root := words name List.mem_cons_self
  rw [pathText, String.toList_append]
  apply Lexes.append (Lexes.variable_name root (endsWord_keys behind keys))
  exact lexes_keys (fun key hk => words key (List.mem_cons_of_mem name hk)) behind

theorem tokens_path (words : ∀ n ∈ name :: keys, IsVariable n) :
    (tokens (pathText name keys)).map (·.token) = pathTokens name keys ++ [.ended] :=
  Lexer.tokens_of_lexes (lexes_path words (by simp [EndsWord]) false)

/-- A path ends with a name, so that nothing behind it is taken for a part of it. -/
theorem isTerminated_path (words : ∀ n ∈ name :: keys, IsVariable n) :
    IsTerminated (pathText name keys) := by
  have alone := tokens_path words
  have own : tokensOf (pathText name keys) = pathTokens name keys := by
    rw [tokensOf, alone, List.dropLast_concat]
  refine ⟨own ▸ alone, ?_, ?_⟩
  · obtain ⟨c, first, start⟩ := exists_first_char (words name List.mem_cons_self)
    have chars : ("(" ++ pathText name keys ++ ")").toList =
        ['('] ++ ((pathText name keys).toList ++ [')']) := by
      simp
    have head : ((pathText name keys).toList ++ [')'] ++ []).head? = some c := by
      simp [pathText, List.head?_append, first]
    have enclosed : Lexes ("(" ++ pathText name keys ++ ")").toList
        ([.sign "("] ++ (pathTokens name keys ++ [.sign ")"])) [] := by
      rw [chars]
      apply Lexes.append (Lexes.opening_parenthesis head
        (Lexes.ne_of_isNameStart start (by decide)) (Lexes.ne_of_isNameStart start (by decide)))
      exact Lexes.append (lexes_path words (endsWord_cons (by decide))) Lexes.closing_parenthesis
    rw [Lexer.tokens_of_lexes (enclosed false), own]
    simp
  · intro t ht
    rw [own] at ht
    rcases List.mem_cons.1 (List.mem_of_getLast? ht) with rfl | inside
    · simp [openers]
    · obtain ⟨key, -, here⟩ := List.mem_flatMap.1 inside
      rcases List.mem_pair.1 here with rfl | rfl <;> simp [openers]

end

/-! ## Reading -/

namespace Parser

open Lexer (IsVariable)

variable {K : List Function → Prop} {fuel : Nat} {a : Around} {e root : Expr} {opened : Bool}
  {t u : Token} {ts us vs : List Token} {P : Expr → Prop} {name key : String} {keys : List String}
  {ss : List Step}

theorem not_mem_methodWords (h : IsVariable key) : methodWords.contains key = false := by
  have table : ∀ w ∈ methodWords, tokenOfWord w ≠ .name w := by decide
  rw [Bool.eq_false_iff, ne_eq, List.contains_iff_mem]
  exact fun mem => table key mem h.token

/-- A property is one more step, whatever is read behind it. -/
theorem reads_property (word : IsVariable key) (open_ : u ≠ .sign "(") (empty : u ≠ .sign "()")
    (later : ∀ p, Reads K (steps fuel a (addStep e opened (.property key p false)) true) (u :: us)
      vs P) :
    Reads K (steps (fuel + 2) a e opened) (.sign "." :: .name key :: u :: us) vs P := by
  rw [steps]
  refine Reads.bind Reads.peek fun o ho => ?_
  simp only [ho]
  rw [memberStep]
  refine Reads.bind Reads.take fun _ _ => Reads.bind Reads.take fun n hn => ?_
  simp only [hn]
  refine Reads.bind Reads.peek fun b hb => ?_
  simp only [hb, not_mem_methodWords word]
  exact later n.pos

theorem head_keyTokens (ht : t ∈ stops) (keys : List String) :
    ∃ u us, keyTokens keys ++ t :: ts = u :: us ∧ u ≠ .sign "(" ∧ u ≠ .sign "()" := by
  have table : ∀ t ∈ stops, t ≠ .sign "(" ∧ t ≠ .sign "()" := by decide
  cases keys with
  | nil => exact ⟨t, ts, rfl, table t ht⟩
  | cons key more => exact ⟨.sign ".", _, rfl, by decide, by decide⟩

theorem reads_properties (ht : t ∈ stops) (words : ∀ key ∈ keys, IsVariable key)
    (he : e.unplaced = .chain root ss) (enough : 2 * keys.length + 1 ≤ fuel) :
    Reads K (steps fuel a e true) (keyTokens keys ++ t :: ts) (t :: ts)
      (·.unplaced = .chain root (ss ++ keys.map (.property · Pos.start false))) := by
  induction keys generalizing fuel e ss with
  | nil =>
    obtain ⟨k, rfl⟩ : ∃ k, fuel = k + 1 := ⟨fuel - 1, by omega⟩
    refine reads_steps ht ?_
    rw [he, List.map_nil, List.append_nil]
  | cons key more ih =>
    rw [List.length_cons] at enough
    obtain ⟨k, rfl⟩ : ∃ k, fuel = k + 2 := ⟨fuel - 2, by omega⟩
    obtain ⟨u, us, eq, open_, empty⟩ := @head_keyTokens t ts ht more
    have tokens : keyTokens (key :: more) ++ t :: ts = .sign "." :: .name key :: u :: us := by
      rw [← eq]
      rfl
    rw [tokens]
    refine reads_property (words key List.mem_cons_self) open_ empty fun p => ?_
    have step : (addStep e true (.property key p false)).unplaced =
        .chain root (ss ++ [.property key Pos.start false]) := by
      rw [Expr.addStep_unplaced, he]
      rfl
    have others := @ih k _ _ (fun other ho => words other (List.mem_cons_of_mem key ho)) step
      (by omega)
    rw [eq, List.append_assoc] at others
    exact others

theorem reads_path (ht : t ∈ stops) (words : ∀ key ∈ keys, IsVariable key) (filled : keys ≠ [])
    (enough : 2 * keys.length + 4 ≤ fuel) :
    Reads K (expression fuel a) (pathTokens name keys ++ t :: ts) (t :: ts)
      (·.unplaced = pathExpr name keys) := by
  obtain ⟨key, more, rfl⟩ := List.exists_cons_of_ne_nil filled
  rw [List.length_cons] at enough
  obtain ⟨k, rfl⟩ : ∃ k, fuel = k + 6 := ⟨fuel - 6, by omega⟩
  obtain ⟨u, us, eq, open_, empty⟩ := @head_keyTokens t ts ht more
  have tokens : pathTokens name (key :: more) ++ t :: ts =
      .name name :: .sign "." :: .name key :: u :: us := by
    rw [← eq]
    rfl
  rw [tokens]
  refine reads_expression ht (reads_operand (by simp [prefixes]) ?_)
  rw [primary]
  refine Reads.bind Reads.peek fun p hp => ?_
  simp only [hp, constant?]
  refine Reads.bind Reads.take fun _ _ => Reads.bind Reads.peek fun q hq => ?_
  simp only [hq]
  refine Reads.bind Reads.mention fun _ _ => ?_
  refine reads_property (words key List.mem_cons_self) open_ empty fun p' => ?_
  have root : (addStep (.variable name p.pos) false (.property key p' false)).unplaced =
      .chain (.variable name Pos.start) [.property key Pos.start false] := rfl
  rw [← eq]
  exact reads_properties ht (fun other ho => words other (List.mem_cons_of_mem key ho)) root
    (by omega)

end Parser

/-- A path by itself is an expression: the chain of its properties. -/
theorem readExpression_path {name : String} {keys : List String} (filled : keys ≠ [])
    (words : ∀ n ∈ name :: keys, Lexer.IsVariable n) (limit : Nat) :
    ∃ e r, readExpression limit (pathText name keys) = .ok (e, r) ∧
      e.unplaced = pathExpr name keys ∧ r.IsOpen ∧ r.functions = [] := by
  have row := tokens_path words
  have count : (tokens (pathText name keys)).length = 2 * keys.length + 2 := by
    have length := congrArg List.length row
    rw [List.length_map, List.length_append, pathTokens, List.length_cons, length_keyTokens] at length
    simpa using length
  obtain ⟨e, r, read, shape, -, rest⟩ := @Parser.reads_path (fun _ => True)
    (Parser.fuelFor (tokens (pathText name keys))) ⟨false, false, false, false, 0, limit⟩ .ended []
    name keys (by simp [Parser.stops]) (fun key hk => words key (List.mem_cons_of_mem name hk)) filled
    (by rw [Parser.fuelFor, count]; omega) ⟨tokens (pathText name keys), [], [], []⟩
    ⟨by simp, trivial⟩ row
  obtain ⟨q, more, ended⟩ : ∃ q more, r.rest = q :: more :=
    List.exists_cons_of_ne_nil fun empty => by simp [empty] at rest
  rw [ended, List.map_cons, List.cons.injEq] at rest
  have peeked : Reader.peek r = .ok (q, r) := by
    rw [Reader.peek, ended]
    rfl
  have accepted : readExpression limit (pathText name keys) = .ok (e, r) := by
    rw [readExpression, bind_of_ok read, bind_of_ok peeked, if_pos rest.1]
    rfl
  have plain : e.isPlain (· = name) = true := by
    rw [← Expr.isPlain_unplaced, shape]
    exact isPlain_pathExpr (by simp) keys
  have passes := (Parser.operands (· = name) _).expression _ _ read plain
  refine ⟨e, r, accepted, shape, fun v hv => ?_, passes.functions⟩
  rw [passes.vars] at hv
  cases hv

/-! ## Running -/

theorem exists_property {ss : List Step} {keys : List String}
    (same : ss.map Step.unplaced = keys.map (.property · Pos.start false)) {s : Step} (hs : s ∈ ss) :
    ∃ key p, s = .property key p false := by
  have mem : s.unplaced ∈ keys.map (Step.property · Pos.start false) :=
    same ▸ List.mem_map_of_mem hs
  obtain ⟨key, -, eq⟩ := List.mem_map.1 mem
  cases s with
  | property name p o =>
    simp only [Step.unplaced, Step.property.injEq] at eq
    exact ⟨name, p, by rw [eq.2.2]⟩
  | method => cases eq
  | index => cases eq

theorem Simplify.steps_eq_self {ss : List Step}
    (properties : ∀ s ∈ ss, ∃ key p, s = .property key p false) : steps ss = ss := by
  induction ss with
  | nil => rfl
  | cons s rest ih =>
    obtain ⟨key, p, rfl⟩ := properties s List.mem_cons_self
    rw [steps, ih fun s hs => properties s (List.mem_cons_of_mem _ hs)]

namespace Eval

variable {outer scope : List Binding} {vars : List (String × Json)} {out : String} {r : Resolver}
  {below : Below} {fs : List Function} {name : String} {ss : List Step} {p q : Pos}

/-- Properties ask for nothing before the chain is followed. -/
theorem exists_accesses (properties : ∀ s ∈ ss, ∃ key p, s = .property key p false) :
    ∃ as, Ends (accesses (engine fs) below ss) scope r (.ok as) scope r := by
  induction ss with
  | nil => exact ⟨[], Ends.ok⟩
  | cons s rest ih =>
    obtain ⟨key, p, rfl⟩ := properties s List.mem_cons_self
    obtain ⟨as, ends⟩ := ih fun s hs => properties s (List.mem_cons_of_mem _ hs)
    exact ⟨.property key p false :: as, Ends.bind ends Ends.pure⟩

/-- A chain of properties behind a name that stands for nothing misses that name. -/
theorem ends_chain_error (hs : Scope outer vars out scope) (hr : r.Sound) (hn : name ≠ "code")
    (hv : sight vars r name = none) (properties : ∀ s ∈ ss, ∃ key p, s = .property key p false) :
    ∃ r', Ends (expr (engine []) below (.chain (.variable name p) ss)) scope r
        (.error (.fault (.here (.unknownVariable name) (some p)))) scope r' ∧
      Resolver.Later r [name] r' := by
  obtain ⟨as, steps⟩ := @exists_accesses scope r below [] ss properties
  obtain ⟨r', ends, later⟩ := @lookup_of_none _ _ _ _ _ _ p hs hr hn hv
  exact ⟨r', Ends.bind steps (Ends.bind Ends.tick (Ends.bind_error ends)), later⟩

theorem ends_render_chain_error (hs : Scope outer vars out scope) (hr : r.Sound) (hn : name ≠ "code")
    (hv : sight vars r name = none) (properties : ∀ s ∈ ss, ∃ key p, s = .property key p false) :
    ∃ r', Ends (expr (engine []) below (.call "_render" [.chain (.variable name p) ss] q)) scope r
        (.error (.fault (.here (.unknownVariable name) (some p)))) scope r' ∧
      Resolver.Later r [name] r' := by
  obtain ⟨r', ends, later⟩ := @ends_chain_error _ _ _ _ _ below _ _ p hs hr hn hv properties
  exact ⟨r', Ends.bind Ends.tick (Ends.bind_error (Ends.bind_error ends)), later⟩

end Eval

end Script

end Stencil
