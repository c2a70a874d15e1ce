import Stencil.Proofs.Guards
import Stencil.Proofs.Script.Properties

/-!
# Paths in documents

A substitution of a path comes out as what the view of the spec finds at its end: the rendered value,
nothing if only the last key is absent, and the text that says it has none if the path breaks off
earlier.  Only its first name can be missed.
-/

namespace Stencil

open Script
open Script.Lexer (IsVariable)

/-- What the view of a spec shows for a path. -/
def Spec.shownAt (spec : Spec) (name : String) (keys : List String) : String :=
  match spec.view? name keys with
  | some v => (Value.ofJson v).render
  | none =>
    if keys.dropLast = [] ∨ (spec.view? name keys.dropLast).isSome then ""
    else "<UNDEFINED: " ++ pathText name keys ++ ">"

/-! ## Values -/

/-- What a script shows for a path. -/
def Script.pathShown (names : Names) (name : String) (keys : List String) : String :=
  match (pathExpr name keys).value? names with
  | some v => v.render
  | none => Append.fallback (pathText name keys)

section

variable {spec : Spec} {deferred : Bool} {name : String} {keys : List String}

theorem pathShown_of_has (mode : name ≠ Resolver.modeName) (field : spec.has name = true)
    (objects : ∀ n < keys.length, ∀ v, spec.view? name (keys.take n) = some v →
      ∃ fields, v = .object fields) :
    pathShown (Emission.names deferred spec) name keys = spec.shownAt name keys := by
  obtain ⟨root, found⟩ := Option.isSome_iff_exists.1 field
  have at_root (keys : List String) : spec.view? name keys = root.at? keys := by
    rw [Spec.view?_eq, found]
    rfl
  simp only [at_root] at objects
  rw [pathShown, Spec.shownAt, value?_pathExpr, Emission.names_of_ne mode, found, Option.map_some,
    Option.bind_some, reach?_ofJson objects, at_root, at_root]
  cases root.at? keys with
  | some v => rfl
  | none =>
    dsimp only
    cases shorter : root.at? keys.dropLast with
    | some v => simp [Value.render]
    | none =>
      have longer : keys.dropLast ≠ [] := by
        rintro empty
        rw [empty] at shorter
        cases shorter
      simp [longer, Append.fallback]

/-- A placeholder shows nothing for its own keys, and has no keys behind them. -/
theorem pathShown_of_placehold (mode : name ≠ Resolver.modeName) (absent : spec.has name = false)
    (filled : keys ≠ []) :
    pathShown (Emission.names deferred (spec.placehold name)) name keys = spec.shownAt name keys := by
  have none_found := Spec.has_eq_false_iff.1 absent
  have nothing (keys : List String) : spec.view? name keys = none := by
    rw [Spec.view?_eq, none_found]
    rfl
  have placeholder : (spec.placehold name).get? name = some (.object []) := by
    rw [Spec.get?_placehold_of_none none_found, if_pos rfl]
  obtain ⟨key, more, rfl⟩ := List.exists_cons_of_ne_nil filled
  rw [pathShown, Spec.shownAt, value?_pathExpr, Emission.names_of_ne mode, placeholder, nothing, nothing]
  cases more with
  | nil => rfl
  | cons next others => rfl

end

/-! ## Guards -/

namespace Script.Eval

variable {name : String} {keys : List String} {out : String} {scope : List Binding} {r : Resolver}
  {below : Below} {e : Expr}

/-- The guard of a path appends what a script shows for it, and misses its first name if it has to. -/
theorem ends_guarded_path (shape : e.unplaced = pathExpr name keys) (own : name ≠ "code")
    (mode : name ≠ Resolver.modeName) (keep : Bool) (p q u b p' q' u' b' w : Pos)
    (hs : Scope [] [] out scope) (hr : r.Sound) :
    ∃ v scope' r', Ends (stmt (engine []) below (Simplify.stmt keep
        (.attempt (.block [Outline.appending (.call "_render" [e] u) p q] b) none
          (.block [Outline.appending
            (.const (.string (Append.fallback (pathText name keys))) u') p' q'] b') w)))
        scope r (.ok v) scope' r' ∧
      Scope [] [] (out ++ pathShown (sight [] r) name keys) scope' ∧
      Resolver.Later r (if (sight [] r name).isSome then [] else [name]) r' := by
  cases found : sight [] r name with
  | some v =>
    have known : r.spec.knows name = true := by
      have field : r.spec.get? name = some v := by
        rw [← @Emission.names_of_ne r.deferred _ _ mode]
        exact found
      simp [Spec.knows, Spec.has, field, own, mode]
    have plain : e.isPlain r.spec.knows = true := by
      rw [← Expr.isPlain_unplaced, shape]
      exact isPlain_pathExpr known keys
    have adds := @adds_guarded r.spec r.deferred e below e (Append.fallback (pathText name keys)) plain
      rfl p q u b p' q' u' b' w
    obtain ⟨v, scope', r', ends, hs', later⟩ := adds.ends keep out scope r hs hr rfl
    rw [← Expr.value?_unplaced, shape] at hs'
    exact ⟨v, scope', r', ends, hs', later⟩
  | none =>
    obtain ⟨root, ss, rfl, root_shape, steps_shape⟩ := Expr.chain_of_unplaced shape
    obtain ⟨p0, rfl⟩ := Expr.variable_of_unplaced root_shape
    have properties : ∀ s ∈ ss, ∃ key p, s = .property key p false := fun s hs =>
      exists_property steps_shape hs
    have same : Simplify.expr (.chain (.variable name p0) ss) = .chain (.variable name p0) ss := by
      rw [Simplify.expr, Simplify.steps_eq_self properties]
      rfl
    obtain ⟨r', failed, later⟩ :=
      @ends_render_chain_error _ _ _ _ _ below _ _ p0 u hs hr own found properties
    obtain ⟨scope', handled, hs'⟩ := @ends_fallback _ _ _ _ _ _ below _ _
      (Append.fallback (pathText name keys)) _ b b' p q p' q' u' w hs failed rfl
    rw [stmt_guarded, same]
    refine ⟨.unit, scope', r', handled, ?_, later⟩
    rwa [pathShown, value?_pathExpr, found]

/-- A block with nothing but the guard of a path in its resolved branch. -/
theorem performs_guarded_path (shape : e.unplaced = pathExpr name keys) (own : name ≠ "code")
    (mode : name ≠ Resolver.modeName) {yes : List Stmt} (p q u b p' q' u' b' w p1 q1 u1 w1 : Pos)
    (hr : r.Sound) (resolved : r.deferred = false) :
    ∃ scope' r', Performs [] below (Simplify.prune false (Simplify.stmts true
        [.branch (.variable Resolver.modeName p1) (.block yes q1)
          (.block [.attempt (.block [Outline.appending (.call "_render" [e] u) p q] b) none
            (.block [Outline.appending
              (.const (.string (Append.fallback (pathText name keys))) u') p' q'] b') w] u1) w1]))
        [⟨"code", .string "", false⟩] r scope' r' ∧
      Scope [] [] (pathShown (sight [] r) name keys) scope' ∧
      Resolver.Later r (if (sight [] r name).isSome then [] else [name]) r' := by
  have start := @Scope.code [] "" (by simp)
  have effect (keep : Bool) : Simplify.pureStmt (Simplify.stmt keep
      (.attempt (.block [Outline.appending (.call "_render" [e] u) p q] b) none
        (.block [Outline.appending
          (.const (.string (Append.fallback (pathText name keys))) u') p' q'] b') w)) = false := by
    rw [stmt_guarded]
    rfl
  have branch : sight [] r Resolver.modeName = some (.bool false) := by
    rw [← resolved]
    rfl
  rw [← @String.empty_append (pathShown (sight [] r) name keys)]
  refine @performs_branch_of _ _ _ _ _ _ _ _ p1 q1 u1 w1 yes _ false _ (by decide) branch
    (fun keep noEffect => ?_) (fun keep v r' sound same => ?_) false true start hr rfl
  · rw [if_neg (by decide), Simplify.stmts, pureStmts_prune_cons (effect keep)] at noEffect
    cases noEffect
  · rw [← same]
    exact ends_block_single effect (fun keep =>
      ends_guarded_path shape own mode keep p q u b p' q' u' b' w start sound) keep start sound

end Script.Eval

/-! ## Documents -/

section

variable {path : Path} {name : String} {keys : List String}

theorem segments_emission {expr : String}
    (plain : ∀ c ∈ expr.toList, c ≠ '"' ∧ c ≠ '\x7b' ∧ c ≠ '\x7d')
    (visible : expr.toList.all Text.isBlank = false) :
    segments ("$\x7b" ++ expr ++ "\x7d") = [.emission expr] := by
  have chars : ("$\x7b" ++ expr ++ "\x7d").toList = '$' :: '\x7b' :: (expr.toList ++ ['\x7d']) := by
    simp
  rw [segments, chars, Segment.scan_marker (Segment.marker?_emission plain []),
    Segment.segment_emission visible, Segment.scan_nil]
  rfl

theorem isContent_of_dollar {line : String} {r : List Char} (h : line.toList = '$' :: r) :
    (Line.classify line).isContent = true := by
  have no_marker : Line.afterMarker? ('$' :: r) = none := rfl
  rw [Line.classify, h, no_marker]
  rfl

theorem lines_of_oneLine {text : String} (h : OneLine text) :
    Document.lines ⟨path, text⟩ = [⟨text, path, 1, false⟩] := by
  rw [Document.lines, Document.pieces_of_newline_not_mem h, Document.number, String.ofList_toList]

end

namespace Emitter

open Emission

variable {path : Path} {name : String} {keys : List String}

/-- The document of one path has one line, one substitution and one guard. -/
theorem rows_path (words : ∀ n ∈ name :: keys, IsVariable n) :
    segments ("$\x7b" ++ pathText name keys ++ "\x7d") = [.emission (pathText name keys)] ∧
      OneLine ("$\x7b" ++ pathText name keys ++ "\x7d") := by
  have part {c d : Char} (hc : c ∈ (pathText name keys).toList) (hd : isNamePart d = false)
      (dot : d ≠ '.') : c ≠ d := by
    rintro rfl
    rcases isNamePart_of_mem_pathText words hc with part | rfl
    · simp [part] at hd
    · exact dot rfl
  obtain ⟨c, first, start⟩ := exists_first_char (words name List.mem_cons_self)
  have visible : (pathText name keys).toList.all Text.isBlank = false := by
    rw [List.all_eq_false]
    refine ⟨c, ?_, by simp [Lexer.Lexes.isBlank_eq_false_of_isNameStart start]⟩
    rw [pathText, String.toList_append]
    exact List.mem_append_left _ (List.mem_of_head? first)
  refine ⟨segments_emission (fun c hc => ⟨part hc (by decide) (by decide),
    part hc (by decide) (by decide), part hc (by decide) (by decide)⟩) visible, ?_⟩
  intro newline
  simp only [String.toList_append, List.mem_append] at newline
  rcases newline with (fixed | inside) | fixed
  · exact absurd fixed (by decide)
  · exact part inside (by decide) (by decide) rfl
  · exact absurd fixed (by decide)

theorem writes_path {limit : Nat} {line : String} {body : List Stmt} (own : name ≠ "code")
    (mode : name ≠ Resolver.modeName) (filled : keys ≠ [])
    (words : ∀ n ∈ name :: keys, IsVariable n) (row : segments line = [.emission (pathText name keys)])
    (framed : IsFramed (IsBlock limit [(line, false)]) body) :
    Writes ⟨[], Simplify.body body⟩ false (fun _ => True)
      (fun spec => pathShown (names false spec) name keys)
      (fun spec => if spec.has name then [] else [name]) := by
  rintro below r sound resolved -
  obtain ⟨ss, p, q, u, block, rfl⟩ := framed
  rw [IsBlock, if_neg (List.cons_ne_nil _ _)] at block
  obtain ⟨yes, no, p1, q1, u1, w1, -, reads, rfl⟩ := block
  have guards : Encoding.rows false [(line, false)] = [.guarded (pathText name keys)] := by
    simp [Encoding.rows, Encoding.statements, row, Encoding.appends, Encoding.ending]
  rw [guards] at reads
  obtain ⟨e, r1, accepted, shape, -, -⟩ := readExpression_path filled words limit
  cases reads with
  | @cons _ s _ _ guard others =>
    cases others
    cases guard with
    | @guarded _ e1 e' r2 read same p2 q2 u2 b2 p3 q3 u3 b3 w3 =>
      rw [accepted] at read
      cases read
      have shape' : e'.unplaced = pathExpr name keys := same.symm.trans shape
      obtain ⟨scope', r', ends, -, later⟩ := Eval.ends_frame (Eval.performs_guarded_path shape' own
        mode p2 q2 u2 b2 p3 q3 u3 b3 w3 p1 q1 u1 w1 sound resolved)
      have seen : Eval.sight [] r = names false r.spec := by
        rw [← resolved]
        rfl
      rw [seen, names_of_ne mode] at later
      rw [seen] at ends
      exact ⟨scope', r', ends, later⟩

/-- The emitter of the document of a path runs to what a script shows for the path. -/
theorem exists_writes_path (tree : FileTree) (spec : Spec) (quiet : HasQuietOpening path)
    (words : ∀ n ∈ name :: keys, IsVariable n) (own : name ≠ "code") (mode : name ≠ Resolver.modeName)
    (filled : keys ≠ []) :
    ∃ emitter program, compile tree spec none false ⟨path, "$\x7b" ++ pathText name keys ++ "\x7d"⟩ =
        .ok emitter ∧ emitter.program = .ok program ∧
      Writes program false (fun _ => True) (fun spec => pathShown (names false spec) name keys)
        (fun spec => if spec.has name then [] else [name]) := by
  obtain ⟨row, line⟩ := @rows_path name keys words
  obtain ⟨e, r, read, -, free, functions⟩ := readExpression_path filled words 0
  have lines := @lines_of_oneLine path _ line
  have exprs : Document.exprs ⟨path, "$\x7b" ++ pathText name keys ++ "\x7d"⟩ =
      [pathText name keys] := by
    simp [Document.exprs, lines, row, Segment.expr?]
  have contained : ∀ expr ∈ Document.exprs ⟨path, "$\x7b" ++ pathText name keys ++ "\x7d"⟩,
      IsContained 0 expr ∧ (Append.guarded expr).Grows 0 (· = []) := by
    rw [exprs]
    intro expr he
    obtain rfl := List.mem_singleton.1 he
    refine ⟨⟨⟨e, r, read, free⟩, isTerminated_path words⟩, ?_⟩
    rintro _ e' r' ⟨⟩ read' fs fs' rfl count
    rw [read] at read'
    cases read'
    rw [functions] at count
    exact List.length_eq_zero_iff.1 count
  have content : ∀ line ∈ Document.lines ⟨path, "$\x7b" ++ pathText name keys ++ "\x7d"⟩,
      (Line.classify line.text).isContent = true := by
    rw [lines]
    intro line hl
    obtain rfl := List.mem_singleton.1 hl
    exact isContent_of_dollar (r := '\x7b' :: ((pathText name keys).toList ++ ['\x7d'])) (by simp)
  obtain ⟨emitter, _, body, compiled, parsed, rfl, framed⟩ :=
    @exists_body_of_grows 0 _ (· = []) ⟨path, "$\x7b" ++ pathText name keys ++ "\x7d"⟩ tree spec quiet
      content (fun expr he => (contained expr he).1) rfl (fun expr he => (contained expr he).2)
      (by decide : 0 + 5 ≤ Parser.depthLimit)
  have gathered_eq : gathered ⟨path, "$\x7b" ++ pathText name keys ++ "\x7d"⟩ =
      [("$\x7b" ++ pathText name keys ++ "\x7d", false)] := by
    simp [gathered, lines, isVoid, SourceLine.content]
  rw [gathered_eq] at framed
  have programmed : emitter.program = .ok ⟨[], Simplify.body body⟩ := by
    rw [program, show parse emitter.source = _ from parsed]
    rfl
  exact ⟨emitter, _, compiled, programmed, writes_path own mode filled words row framed⟩

/--
In place of a path stands what the view of the spec shows for it, if what its keys meet before the
last one are objects.  The only name that is missed is that of the field.
-/
theorem run_property_path (tree : FileTree) (spec : Spec) (maxAttempts : Nat) (quiet : HasQuietOpening path)
    (words : ∀ n ∈ name :: keys, IsVariable n) (own : name ≠ "code") (mode : name ≠ Resolver.modeName)
    (filled : keys ≠ [])
    (objects : ∀ n < keys.length, ∀ v, spec.view? name (keys.take n) = some v →
      ∃ fields, v = .object fields) :
    ∃ emitter, compile tree spec none false ⟨path, "$\x7b" ++ pathText name keys ++ "\x7d"⟩ =
        .ok emitter ∧
      emitter.run ⟨maxAttempts, false, 0⟩ spec =
        if spec.has name then (.ok ⟨spec.shownAt name keys, [], 1⟩, spec)
        else if maxAttempts = 0 then (.error (.retryExhausted 1 [name]), spec.placehold name)
        else (.ok ⟨spec.shownAt name keys, [name], 2⟩, spec.placehold name) := by
  obtain ⟨emitter, program, compiled, programmed, writes⟩ :=
    exists_writes_path tree spec quiet words own mode filled
  refine ⟨emitter, compiled, ?_⟩
  by_cases field : spec.has name = true
  · have run := @run_of_writes emitter _ ⟨maxAttempts, false, 0⟩ _ _ _ spec [] programmed writes rfl
      trivial (by simp [field]) trivial (by simp [field])
    rw [if_pos field, run, if_neg (by simp), List.foldl_nil, pathShown_of_has mode field objects]
    rfl
  · rw [Bool.not_eq_true] at field
    have placed : (spec.placehold name).has name = true := by
      rw [Spec.has, Spec.get?_placehold_of_none (Spec.has_eq_false_iff.1 field), if_pos rfl]
      rfl
    have run := @run_of_writes emitter _ ⟨maxAttempts, false, 0⟩ _ _ _ spec [name] programmed writes rfl
      trivial (by simp [field, List.eraseDups_cons]) trivial (by simp [placed])
    rw [field, if_neg (by decide), run, List.foldl_cons, List.foldl_nil,
      pathShown_of_placehold mode field filled]
    by_cases none_allowed : maxAttempts = 0
    · rw [if_pos none_allowed, if_pos (by simp [none_allowed])]
    · rw [if_neg none_allowed, if_neg (by simp; omega)]
      rfl

/-- The keys of one field are all there; the other field is not, and its path breaks off. -/
theorem run_property_path_of_links :
    HasQuietOpening ⟨"page"⟩ ∧
    (∀ n ∈ ["site", "links", "home"], IsVariable n) ∧ (∀ n ∈ ["page", "title", "short"], IsVariable n) ∧
    (∃ emitter, compile ⟨[], []⟩ ⟨[("site", .object [("links", .object [("home", .string "/")])])]⟩ none
        false ⟨⟨"page"⟩, "$\x7bsite.links.home\x7d"⟩ = .ok emitter ∧
      emitter.run ⟨100, false, 0⟩ ⟨[("site", .object [("links", .object [("home", .string "/")])])]⟩ =
        (.ok ⟨"/", [], 1⟩, ⟨[("site", .object [("links", .object [("home", .string "/")])])]⟩)) ∧
    ∃ emitter, compile ⟨[], []⟩ ⟨[("site", .null)]⟩ none false
        ⟨⟨"page"⟩, "$\x7bpage.title.short\x7d"⟩ = .ok emitter ∧
      emitter.run ⟨100, false, 0⟩ ⟨[("site", .null)]⟩ =
        (.ok ⟨"<UNDEFINED: page.title.short>", ["page"], 2⟩, ⟨[("page", .object []), ("site", .null)]⟩) := by
  have quiet : HasQuietOpening ⟨"page"⟩ := hasQuietOpening (by simp)
  have there : ∀ n ∈ ["site", "links", "home"], IsVariable n := by decide
  have missed : ∀ n ∈ ["page", "title", "short"], IsVariable n := by decide
  refine ⟨quiet, there, missed, ?_, ?_⟩
  · refine @run_property_path ⟨"page"⟩ "site" ["links", "home"] ⟨[], []⟩
      ⟨[("site", .object [("links", .object [("home", .string "/")])])]⟩ 100 quiet there (by decide)
      (by decide) (by decide) fun n hn v hv => ?_
    rcases n with _ | _ | n
    · exact ⟨_, (Option.some.inj hv).symm⟩
    · exact ⟨_, (Option.some.inj hv).symm⟩
    · simp at hn
  · refine @run_property_path ⟨"page"⟩ "page" ["title", "short"] ⟨[], []⟩ ⟨[("site", .null)]⟩ 100 quiet missed
      (by decide) (by decide) (by decide) fun n hn v hv => ?_
    rw [Spec.view?_eq] at hv
    cases hv

/-- A path of a document that ends the opening comment is read as code. -/
theorem run_property_path_of_carriage_return :
    OneLine "a\x0db" ∧ (∀ n ∈ ["f", "k"], IsVariable n) ∧
      Spec.view? ⟨[("f", .object [("k", .integer 1)])]⟩ "f" ["k"] = some (.integer 1) ∧
      ∃ emitter, compile ⟨[], []⟩ ⟨[("f", .object [("k", .integer 1)])]⟩ none false
          ⟨⟨"a\x0db"⟩, "$\x7bf.k\x7d"⟩ = .ok emitter ∧
        ∃ message location fragment, emitter.run ⟨100, false, 0⟩ ⟨[("f", .object [("k", .integer 1)])]⟩ =
          (.error (.syntaxError message location fragment), ⟨[("f", .object [("k", .integer 1)])]⟩) := by
  have content : ∀ line ∈ Document.lines ⟨⟨"a\x0db"⟩, "$\x7bf.k\x7d"⟩,
      (Line.classify line.text).isContent = true := by
    decide +kernel
  have compiled := @compile_of_kept ⟨[], []⟩ ⟨[("f", .object [("k", .integer 1)])]⟩ none false
    ⟨⟨"a\x0db"⟩, "$\x7bf.k\x7d"⟩
    fun line hl => Line.isInclude_eq_false_of_isContent (content line hl)
  refine ⟨by decide, by decide, rfl, _, compiled, ?_⟩
  apply run_of_unreadable
  decide +kernel

end Emitter

end Stencil
