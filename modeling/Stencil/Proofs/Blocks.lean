import Stencil.Proofs.Substitution

/-!
# Runs of content lines

The statements of a document without directives stand in one block with two branches, and only those
in the branch of its mode run.  If each of them appends its text and misses nothing, the document runs
once, to these texts.
-/

namespace Stencil

open Script

namespace Script.Eval

/--
A simplified statement appends `text` to the variable `code` and misses nothing, where names stand for
what they do in `names`.
-/
structure Adds (fs : List Function) (below : Below) (names : Names) (s : Stmt) (text : String) :
    Prop where
  effect : ∀ keep, Simplify.pureStmt (Simplify.stmt keep s) = false
  ends : ∀ keep out scope r, Scope [] [] out scope → r.Sound → sight [] r = names →
    ∃ v scope' r', Ends (stmt (engine fs) below (Simplify.stmt keep s)) scope r (.ok v) scope' r' ∧
      Scope [] [] (out ++ text) scope' ∧ Resolver.Later r [] r'

variable {fs : List Function} {below : Below} {names : Names} {ss : List Stmt} {out text : String}
  {texts : List String} {scope : List Binding} {r : Resolver} {name : String} {p q u w : Pos}

theorem adds_literal :
    Adds fs below names (Outline.appending (.const (.string text) u) p q) text where
  effect _ := rfl
  ends keep out scope r hs hr _ := by
    obtain ⟨scope', ends, hs'⟩ := @ends_appending fs _ _ _ _ _ p below _ q _ _ hs ends_const
    exact ⟨.unit, scope', r, ends, hs', Resolver.Later.refl hr⟩

theorem performs_adds (h : List.Forall₂ (Adds fs below names) ss texts) (k keep : Bool)
    (hs : Scope [] [] out scope) (hr : r.Sound) (hn : sight [] r = names) :
    ∃ scope' r', Performs fs below (Simplify.prune k (Simplify.stmts keep ss)) scope r scope' r' ∧
      Scope [] [] (out ++ String.join texts) scope' ∧ Resolver.Later r [] r' := by
  induction h generalizing out scope r with
  | nil =>
    refine ⟨scope, r, .nil, ?_, Resolver.Later.refl hr⟩
    simpa using hs
  | @cons s text rest texts first others ih =>
    rw [Simplify.stmts, String.join_cons]
    change ∃ scope' r', _ ∧ _ ∧ Resolver.Later r ([] ++ []) r'
    refine performs_prune_cons hs hr ?_
      (first.ends keep out scope r hs hr hn) ?_
    · intro noEffect
      simp [first.effect keep] at noEffect
    · intro scope' r' hs' later
      exact ih hs' later.sound ((sight_of_later later).trans hn)

theorem ends_block_adds (h : List.Forall₂ (Adds fs below names) ss texts) (keep : Bool)
    (hs : Scope [] [] out scope) (hr : r.Sound) (hn : sight [] r = names) :
    ∃ v scope' r', Ends (stmt (engine fs) below (Simplify.stmt keep (.block ss p))) scope r (.ok v)
        scope' r' ∧ Scope [] [] (out ++ String.join texts) scope' ∧ Resolver.Later r [] r' := by
  obtain ⟨scope', r', performs, hs', later⟩ := performs_adds h keep keep hs hr hn
  obtain ⟨v, ends⟩ := ends_stmts performs
  exact ⟨v, scope', r', ends_block hs hs' ends, hs', later⟩

/-- A statement that has an effect is not taken out of a row. -/
theorem pureStmts_prune_cons {s : Stmt} (effect : Simplify.pureStmt s = false) (k : Bool)
    (rest : List Stmt) : Simplify.pureStmts (Simplify.prune k (s :: rest)) = false := by
  rcases Simplify.prune_cases k s rest with eq | ⟨noEffect, -⟩
  · rw [eq, Simplify.pureStmts, effect, Bool.false_and]
  · simp [effect] at noEffect

theorem eq_nil_of_pureStmts (h : List.Forall₂ (Adds fs below names) ss texts) {k keep : Bool}
    (noEffect : Simplify.pureStmts (Simplify.prune k (Simplify.stmts keep ss)) = true) :
    texts = [] := by
  cases h with
  | nil => rfl
  | @cons s text rest texts first others =>
    rw [Simplify.stmts, pureStmts_prune_cons (first.effect keep)] at noEffect
    cases noEffect

theorem adds_guarded_name {fallback : String} {v : Json}
    {body handler p1 p2 p3 p4 q1 q2 q3 q4 : Pos} (renders : Renders fs) (own : name ≠ "code")
    (known : names name = some v) :
    Adds fs below names
      (.attempt (.block [Outline.appending (.call "_render" [.variable name p3] p4) p1 p2] body) none
        (.block [Outline.appending (.const (.string fallback) q3) q1 q2] handler) q4)
      (Value.ofJson v).render where
  effect keep := by
    rw [Outline.stmt_guarded]
    rfl
  ends keep out scope r hs hr same := by
    have seen : sight [] r name = some v := same ▸ known
    obtain ⟨r', rendered, later⟩ := @ends_render _ _ _ _ _ _ _ p3 below p4 _ renders hs hr own seen
    obtain ⟨scope', appended, hs'⟩ :=
      @ends_block_appending _ _ _ _ _ _ p1 below _ p2 _ _ body hs rendered
    rw [Outline.stmt_guarded, stmt]
    exact ⟨.unit, scope', r', Ends.bind Ends.tick (Ends.attempt_ok appended), hs', later⟩

theorem ends_block_single {s : Stmt} {missed : List String}
    (effect : ∀ keep, Simplify.pureStmt (Simplify.stmt keep s) = false)
    (ends : ∀ keep, ∃ v scope' r', Ends (stmt (engine fs) below (Simplify.stmt keep s)) scope r
      (.ok v) scope' r' ∧ Scope [] [] (out ++ text) scope' ∧ Resolver.Later r missed r')
    (keep : Bool) (hs : Scope [] [] out scope) (hr : r.Sound) :
    ∃ v scope' r', Ends (stmt (engine fs) below (Simplify.stmt keep (.block [s] p))) scope r (.ok v)
        scope' r' ∧ Scope [] [] (out ++ text) scope' ∧ Resolver.Later r missed r' := by
  have performs : ∃ scope' r', Performs fs below
      (Simplify.prune keep (Simplify.stmts keep [s])) scope r scope' r' ∧
      Scope [] [] (out ++ (text ++ "")) scope' ∧ Resolver.Later r (missed ++ []) r' := by
    refine performs_prune_cons hs hr (fun noEffect => ?_) (ends keep) fun scope' r' hs' later => ?_
    · simp [effect keep] at noEffect
    · refine ⟨scope', r', .nil, ?_, Resolver.Later.refl later.sound⟩
      rwa [String.append_empty]
  rw [String.append_empty, List.append_nil] at performs
  obtain ⟨scope', r', performs, hs', later⟩ := performs
  obtain ⟨v, ends⟩ := ends_stmts performs
  exact ⟨v, scope', r', ends_block hs hs' ends, hs', later⟩

/-- A conditional does what the chosen block does; the other one may be any. -/
theorem performs_branch_of {yes no : List Stmt} {b : Bool} {missed : List String}
    (hn : name ≠ "code") (hb : names name = some (.bool b))
    (silent : ∀ keep, Simplify.pureStmts
      (Simplify.prune keep (Simplify.stmts keep (if b then yes else no))) = true →
        text = "" ∧ missed = [])
    (chosen : ∀ keep v r, r.Sound → sight [] r = names → ∃ w scope' r',
      Ends (stmt (engine fs) below (Simplify.stmt keep (.block (if b then yes else no) v))) scope r
        (.ok w) scope' r' ∧ Scope [] [] (out ++ text) scope' ∧ Resolver.Later r missed r')
    (k keep : Bool) (hs : Scope [] [] out scope) (hr : r.Sound) (same : sight [] r = names) :
    ∃ scope' r', Performs fs below (Simplify.prune k (Simplify.stmts keep
        [.branch (.variable name p) (.block yes q) (.block no u) w])) scope r scope' r' ∧
      Scope [] [] (out ++ text) scope' ∧ Resolver.Later r missed r' := by
  have both (hy : Simplify.pureStmts (Simplify.prune keep (Simplify.stmts keep yes)) = true)
      (hn : Simplify.pureStmts (Simplify.prune keep (Simplify.stmts keep no)) = true) :
      text = "" ∧ missed = [] := by
    cases b with
    | true => exact silent keep hy
    | false => exact silent keep hn
  rw [Simplify.stmts, Simplify.stmts, ← @String.append_empty text, ← List.append_nil missed]
  refine performs_prune_cons hs hr (fun noEffect => ?_) ?_
    fun scope' r' hs' later => ?_
  · obtain ⟨hy, hn⟩ := Outline.pureStmt_branch noEffect
    exact both hy hn
  · refine ends_chosen_branch hn hs hr (by rw [same]; exact hb) (fun empty => ?_) fun r' asked => ?_
    · rw [Bool.and_eq_true] at empty
      exact both (Outline.pureStmts_of_isEmpty empty.1) (Outline.pureStmts_of_isEmpty empty.2)
    · have within := (sight_of_later asked).trans same
      cases b with
      | true => exact chosen keep q r' asked.sound within
      | false => exact chosen keep u r' asked.sound within
  · refine ⟨scope', r', .nil, ?_, Resolver.Later.refl later.sound⟩
    rwa [String.append_empty]

theorem performs_branch {yes no : List Stmt} {b : Bool} (hn : name ≠ "code")
    (hb : names name = some (.bool b))
    (h : List.Forall₂ (Adds fs below names) (if b then yes else no) texts) (k keep : Bool)
    (hs : Scope [] [] out scope) (hr : r.Sound) (same : sight [] r = names) :
    ∃ scope' r', Performs fs below (Simplify.prune k (Simplify.stmts keep
        [.branch (.variable name p) (.block yes q) (.block no u) w])) scope r scope' r' ∧
      Scope [] [] (out ++ String.join texts) scope' ∧ Resolver.Later r [] r' := by
  refine performs_branch_of hn hb (fun keep noEffect => ?_)
    (fun keep v r hr same => ends_block_adds h keep hs hr same) k keep hs hr same
  rw [eq_nil_of_pureStmts h noEffect]
  exact ⟨rfl, rfl⟩

end Script.Eval

namespace Emitter

open Emission

variable {document : Document} {limit maxAttempts : Nat} {deferred : Bool} {spec : Spec}

/-- Each statement of a row of substitutions that are all known appends a text. -/
theorem exists_adds {fs : List Function} {below : Below} {names : Names} {as : List Append}
    {ss : List Stmt} (shape : Outline.Shape (as.foldr Append.onto .done) ss)
    (renders : Eval.Renders fs) (own : ∀ expr, .guarded expr ∈ as → Text.trim expr ≠ "code")
    (known : as.flatMap (Append.missing names) = []) :
    ∃ texts, List.Forall₂ (Eval.Adds fs below names) ss texts := by
  induction as generalizing ss with
  | nil =>
    cases shape
    exact ⟨[], .nil⟩
  | cons a more ih =>
    rw [List.flatMap_cons, List.append_eq_nil_iff] at known
    have others := fun ss shape =>
      @ih ss shape (fun expr he => own expr (List.mem_cons_of_mem a he)) known.2
    cases a with
    | literal text =>
      cases shape with
      | append p q u behind =>
        obtain ⟨texts, adds⟩ := others _ behind
        exact ⟨text :: texts, .cons Eval.adds_literal adds⟩
    | guarded expr =>
      obtain ⟨v, found⟩ : ∃ v, names (Text.trim expr) = some v := by
        rw [← Option.isSome_iff_exists]
        refine Decidable.byContradiction fun unknown => ?_
        have here := known.1
        rw [Append.missing, if_neg unknown] at here
        cases here
      cases shape with
      | guarded body handler p q u v p' q' u' v' behind =>
        obtain ⟨texts, adds⟩ := others _ behind
        exact ⟨_ :: texts,
          .cons (Eval.adds_guarded_name renders (own expr List.mem_cons_self) found) adds⟩

/-- A block of lines whose substitutions are all known appends a text. -/
theorem performs_blockOnto {fs : List Function} {below : Below} {names : Names}
    {run : List (String × Bool)} {ss : List Stmt} {out : String} {scope : List Binding}
    {r : Resolver} (shape : Outline.Shape (blockOnto run .done) ss) (renders : Eval.Renders fs)
    (bare : ∀ line ∈ run, Encoding.IsBare line.1)
    (mode : names Resolver.modeName = some (.bool deferred))
    (known : (Encoding.outline deferred run).missing names = []) (keep used : Bool)
    (hs : Eval.Scope [] [] out scope) (hr : r.Sound) (same : Eval.sight [] r = names) :
    ∃ text scope' r', Eval.Performs fs below (Simplify.prune keep (Simplify.stmts used ss)) scope r
        scope' r' ∧
      Eval.Scope [] [] text scope' ∧ Resolver.Later r [] r' := by
  unfold blockOnto at shape
  split at shape
  · cases shape
    exact ⟨out, scope, r, .nil, hs, Resolver.Later.refl hr⟩
  · have adds {deferred : Bool} {ss : List Stmt} (shape : Outline.Shape (Encoding.outline deferred run) ss)
        (known : (Encoding.outline deferred run).missing names = []) :
        ∃ texts, List.Forall₂ (Eval.Adds fs below names) ss texts := by
      refine exists_adds shape renders (fun expr he => ?_) ?_
      · obtain ⟨line, hl, inside⟩ := Encoding.mem_exprs_of_mem_rows he
        exact (bare line hl expr inside).own
      · rwa [Encoding.outline, Append.missing_onto, Outline.missing, List.append_nil] at known
    cases shape with
    | @branch _ _ _ _ ys ns _ p q u v inside otherwise behind =>
      cases behind
      obtain ⟨texts, chosen⟩ : ∃ texts,
          List.Forall₂ (Eval.Adds fs below names) (if deferred then ys else ns) texts := by
        cases deferred with
        | true => exact adds inside known
        | false => exact adds otherwise known
      obtain ⟨scope', r', performs, hs', later⟩ :=
        @Eval.performs_branch _ _ _ _ _ _ _ _ p q u v _ _ _ (by decide) mode chosen keep used hs hr same
      exact ⟨_, scope', r', performs, hs', later⟩

theorem forall₂_adds {fs : List Function} {below : Below} {names : Names} {as : List Append}
    {ss : List Stmt} {shown : Append → String} (h : List.Forall₂ (Append.IsRead limit) as ss)
    (adds : ∀ a ∈ as, ∀ s, a.IsRead limit s → Eval.Adds fs below names s (shown a)) :
    List.Forall₂ (Eval.Adds fs below names) ss (as.map shown) := by
  induction h with
  | nil => exact .nil
  | cons read others ih =>
    exact .cons (adds _ List.mem_cons_self _ read)
      (ih fun a ha => adds a (List.mem_cons_of_mem _ ha))

theorem performs_block {fs : List Function} {below : Below} {run : List (String × Bool)}
    {ss : List Stmt} {shown : Append → String} {r : Resolver} (block : IsBlock limit run ss)
    (adds : ∀ a ∈ Encoding.rows deferred run, ∀ s, a.IsRead limit s →
      Eval.Adds fs below (names deferred spec) s (shown a))
    (sound : r.Sound) (same : names r.deferred r.spec = names deferred spec) :
    ∃ scope' r', Eval.Performs fs below (Simplify.prune false (Simplify.stmts true ss))
        [⟨"code", .string "", false⟩] r scope' r' ∧
      Eval.Scope [] [] (String.join ((Encoding.rows deferred run).map shown)) scope' ∧
      Resolver.Later r [] r' := by
  have own := @Eval.Scope.code [] "" (by simp)
  unfold IsBlock at block
  split at block
  · rename_i empty
    rw [block, empty]
    exact ⟨_, _, .nil, own, Resolver.Later.refl sound⟩
  · obtain ⟨yes, no, p, q, u, w, hy, hn, rfl⟩ := block
    have mode : names deferred spec Resolver.modeName = some (.bool deferred) := rfl
    rw [← @String.empty_append (String.join _)]
    refine Eval.performs_branch (by decide) mode ?_ false true own sound same
    cases deferred with
    | true => exact forall₂_adds hy adds
    | false => exact forall₂_adds hn adds

/--
A document runs once, to the texts of its lines, if each statement of its mode appends its text and
misses nothing.
-/
theorem run_of_adds {emitter : Emitter} {functions : List Function} {body : List Stmt}
    {value : String → String} (parsed : parse emitter.source = .ok ⟨functions, body⟩)
    (framed : IsFramed (IsBlock limit (gathered document)) body)
    (adds : ∀ below, ∀ a ∈ Encoding.rows deferred (gathered document), ∀ s, a.IsRead limit s →
      Eval.Adds (Program.simplify ⟨functions, body⟩).functions below (names deferred spec) s
        (a.shown value)) :
    emitter.run ⟨maxAttempts, deferred, 0⟩ spec =
      (.ok ⟨String.join (document.lines.map fun line =>
        Encoding.rendered deferred value line.text line.terminated), [], 1⟩, spec) := by
  have text : String.join ((Encoding.rows deferred (gathered document)).map (Append.shown value)) =
      String.join (document.lines.map fun line =>
        Encoding.rendered deferred value line.text line.terminated) := by
    rw [gathered, rows_filter_isVoid, Encoding.join_shown_rows, List.map_map]
    rfl
  have prints : Prints (Program.simplify ⟨functions, body⟩) (· = names deferred spec)
      (fun _ => String.join (document.lines.map fun line =>
        Encoding.rendered deferred value line.text line.terminated)) (fun _ => []) := by
    intro below r sound same
    obtain ⟨ss, p, q, u, block, rfl⟩ := framed
    rw [← text]
    obtain ⟨scope', r', ends, -, later⟩ :=
      Eval.ends_frame (performs_block block (adds below) sound same)
    exact ⟨scope', r', ends, later⟩
  have programmed : emitter.program = .ok (Program.simplify ⟨functions, body⟩) := by
    rw [program, parsed]
  exact run_of_prints programmed prints rfl rfl rfl rfl rfl

end Emitter

end Stencil
