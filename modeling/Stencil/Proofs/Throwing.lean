import Stencil.Proofs.Blocks
import Stencil.Proofs.Script.Definitions
import Stencil.Proofs.Script.Stepping

/-!
# Scripts that throw

A script defines functions, appends a block of content lines and throws.  The functions matter to the
block only where one of them stands in for the rendering of substitutions; the fault ends the script,
and it is located at the statement that throws it.
-/

namespace Stencil

open Script

/-! ## Reading -/

namespace Script.Parser

open Emitter (blockOnto)

variable {K : List Function → Prop} {a : Around} {r : Reading} {fuel : Nat} {front ps : List Placed}
  {p : Placed}

/-- A script takes the block of a run of content lines, which is one statement or none. -/
theorem exists_block {run : List (String × Bool)} (calm : Calm K r)
    (ahead : r.rest = front ++ p :: ps)
    (row : front.map (·.token) = (blockOnto run .done).tokens) (going : p.token ≠ .ended)
    (enough : 2 * front.length + 32 ≤ fuel)
    (depth : a.depth + (blockOnto run .done).levels ≤ a.limit) :
    ∃ ss s rest, Outline.Shape (blockOnto run .done) ss ∧ Calm K s ∧ s.rest = p :: ps ∧
      fuel ≤ rest + 1 ∧ ∀ acc, script fuel a acc r = script rest a (ss.reverse ++ acc) s := by
  unfold blockOnto at row depth ⊢
  split at row
  · rename_i empty
    rw [if_pos empty]
    rw [Outline.tokens, List.map_eq_nil_iff] at row
    exact ⟨[], r, fuel, .done, calm, by rw [ahead, row, List.nil_append], Nat.le_succ fuel,
      fun acc => rfl⟩
  · rename_i filled
    rw [if_neg filled] at depth ⊢
    obtain ⟨k, rfl⟩ : ∃ k, fuel = k + 8 := ⟨fuel - 8, by omega⟩
    have count := congrArg List.length row
    simp only [Outline.tokens, List.length_map, List.length_append, List.length_cons,
      List.length_nil] at count
    simp only [Outline.levels] at depth
    have body (deferred : Bool) : ReadsBody K (k + 4)
        { a with top := false, depth := a.depth + 2 } (Encoding.outline deferred run).tokens
        (Outline.Shape (Encoding.outline deferred run)) :=
      reads_body _ (by cases deferred <;> omega) (by cases deferred <;> simp only <;> omega)
    rw [Outline.tokens, Outline.tokens, List.append_nil] at row
    obtain ⟨st, s, ⟨yes, no, p, q, u, w, hy, hn, rfl⟩, calm', rest, step⟩ :=
      exists_step (readsFirst_branch (by omega) (body true) (body false)) calm ahead row going
    exact ⟨_, s, k + 7, .branch p q u w hy hn .done, calm', rest, Nat.le_refl _, step⟩

theorem head?_ne_ended {ts us : List Token} {o : Outline} {t : Token} (more : .ended ∉ ts)
    (other : t ≠ .ended) : (ts ++ (o.tokens ++ t :: us)).head? ≠ some .ended := by
  cases ts with
  | nil => exact head?_tokens_append o (by simpa using other)
  | cons u us => simpa using fun eq : u = .ended => more (eq ▸ List.mem_cons_self)

theorem exists_cons_of_head? {placed : List Placed} {ts : List Token}
    (row : placed.map (·.token) = ts) (filled : ts ≠ []) (head : ts.head? ≠ some .ended) :
    ∃ p ps, placed = p :: ps ∧ p.token ≠ .ended := by
  subst row
  cases placed with
  | nil => exact absurd rfl filled
  | cons p ps => exact ⟨p, ps, rfl, by simpa using head⟩

/--
A script of a declaration, function definitions, a block, a fault and another block is read as such.
The fault is located at its own first token, and the functions are those that are defined, but for
those of closures.
-/
theorem parse_thrown {source library text : String} {functions : List Function} {ts : List Token}
    {before after : List (String × Bool)} {declared shared block behind : List Placed} {q : Pos}
    (split : tokens source = declared ++ (shared ++ (block ++ ⟨.word "throw", q⟩ :: behind)))
    (row_declared : declared.map (·.token) =
      [.word "let", .name "code", .sign "=", .text "", .sign ";"])
    (alone : (tokens library).map (·.token) = ts ++ [.ended])
    (parsed : parse library = .ok ⟨functions, []⟩) (row_shared : shared.map (·.token) = ts)
    (row_block : block.map (·.token) = (blockOnto before .done).tokens)
    (row_behind : behind.map (·.token) = .text text :: .sign ";" ::
      ((blockOnto after .done).tokens ++ [.name "code", .ended])) :
    ∃ fs front rest p w u x, parse source = .ok ⟨fs, .declare "code" (.const (.string "") p) false w ::
        (front ++ .throw (some (.const (.string text) u)) q :: rest ++
          [.expr (.variable "code" x)])⟩ ∧
      Outline.Shape (blockOnto before .done) front ∧
      ∀ name count, isClosureName name = false → Defines fs name count →
        Defines functions name count := by
  let top : Around := ⟨true, false, false, false, 0, depthLimit⟩
  obtain ⟨first, more, rfl, row_first, row_more⟩ :
      ∃ first more, behind = first ++ more ∧ first.map (·.token) = [.text text, .sign ";"] ∧
        more.map (·.token) = (blockOnto after .done).tokens ++ [.name "code", .ended] :=
    List.map_eq_append_iff.1 (by simpa using row_behind)
  have row_rest : (shared ++ (block ++ ⟨.word "throw", q⟩ :: (first ++ more))).map (·.token) =
      ts ++ ((blockOnto before .done).tokens ++ .word "throw" :: (first ++ more).map (·.token)) := by
    rw [List.map_append, List.map_append, row_shared, row_block, List.map_cons]
  obtain ⟨p, ps, next, going⟩ := exists_cons_of_head? row_rest (by simp)
    (head?_ne_ended (Lexer.ended_not_mem alone) (by simp))
  obtain ⟨p', ps', next', going'⟩ := exists_cons_of_head? row_more (by simp)
    (head?_tokens_append _ (by simp))
  -- The fuel is more than all that is read can use up.
  have count_lib : (tokens library).length = shared.length + 1 := by
    rw [← List.length_map (f := (·.token)), alone, ← row_shared]
    simp
  have count_declared : declared.length = 5 := by
    simpa using congrArg List.length row_declared
  have count_first : first.length = 2 := by
    simpa using congrArg List.length row_first
  have count_more : more.length = (blockOnto after .done).tokens.length + 2 := by
    simpa using congrArg List.length row_more
  obtain ⟨k, fuel, enough⟩ : ∃ k, fuelFor (tokens source) = k + 7 ∧
      k + 6 = 16 * (block.length + more.length + 7) - 1 + fuelFor (tokens library) := by
    refine ⟨fuelFor (tokens source) - 7, ?_, ?_⟩ <;>
    · simp only [fuelFor, split, count_lib, List.length_append, List.length_cons]
      omega
  have calm₀ : Calm (· = []) ⟨tokens source, [], [], []⟩ := ⟨by simp, rfl⟩
  obtain ⟨_, s₁, ⟨pos, w, rfl⟩, calm₁, rest₁, step₁⟩ :=
    exists_step (readsFirst_content : ReadsFirst (· = []) (k + 6) top _ _) calm₀
      (split.trans (by rw [next])) row_declared going
  obtain ⟨fuel₂, s₂, enough₂, step₂, rest₂, vars₂, defines⟩ :=
    script_definitions (16 * (block.length + more.length + 7) - 1) alone parsed
      (rest₁.trans next.symm) row_shared (by simp) calm₁.vars calm₁.functions
  have calm₂ : Calm (· = s₂.functions) s₂ := ⟨vars₂ ▸ calm₁.vars, rfl⟩
  obtain ⟨front, s₃, fuel₃, shape, calm₃, rest₃, enough₃, step₃⟩ :=
    @exists_block _ top s₂ fuel₂ block _ _ before calm₂ rest₂ row_block (by simp) (by omega)
      (by simpa [top] using Emitter.levels_block before)
  obtain ⟨m, rfl⟩ : ∃ m, fuel₃ = m + 7 := ⟨fuel₃ - 7, by omega⟩
  obtain ⟨u, s₄, calm₄, rest₄, step₄⟩ :=
    @exists_throw _ s₃ m top _ _ _ text q calm₃ (by rw [rest₃, next']) row_first going'
  obtain ⟨body, s₅, read, ⟨rest, x, rfl, -⟩, calm₅, -⟩ :=
    @reads_script _ (blockOnto after .done) (m + 6) top (by omega) (by simpa [top] using Emitter.levels_block after)
      _ s₄ calm₄ (by rw [rest₄, ← next', row_more])
  refine ⟨s₅.functions.reverse, front, rest, pos, w, u, x, ?_, shape, fun name count own found => ?_⟩
  · have run : script (fuelFor (tokens source)) top [] ⟨tokens source, [], [], []⟩ = _ :=
      (((fuel ▸ step₁ []).trans (enough ▸ step₂ _)).trans (step₃ _)).trans ((step₄ _).trans read)
    rw [← parseWithin_depthLimit]
    simp only [parseWithin, show script _ ⟨true, false, false, false, 0, depthLimit⟩ [] _ = _ from run,
      bind, Except.bind, Pure.pure, Except.pure]
    simp
  · obtain ⟨f, member, same⟩ := found
    exact defines name count own ⟨f, by rwa [← calm₅.functions, ← List.mem_reverse], same⟩

end Script.Parser

/-! ## Running -/

namespace Script.Eval

variable {fs : List Function} {below : Below} {ss more : List Stmt} {s : Stmt} {stop : Stop}
  {scope scope' scope'' : List Binding} {r r' r'' : Resolver} {v : Value} {p q u w : Pos}

theorem ends_throw : Ends (stmt (engine fs) below (.throw (some (.const v u)) q)) scope r
    (.error (.fault (.here (.thrown v) (some q)))) scope r := by
  apply Ends.bind Ends.tick
  exact Ends.bind (@ends_const fs scope r u below v) Ends.fault

/-- What stands behind a statement that stops is not run. -/
theorem ends_stmts_error (front : Performs fs below ss scope r scope' r')
    (stops : Ends (stmt (engine fs) below s) scope' r' (.error stop) scope'' r'') :
    Ends (stmts (engine fs) below (ss ++ s :: more)) scope r (.error stop) scope'' r'' := by
  induction front with
  | nil =>
    cases more with
    | nil => exact stops
    | cons next others => exact Ends.bind_error stops
  | cons first others ih =>
    rw [List.cons_append, stmts]
    · exact Ends.bind first (ih stops)
    · simp

/-- A fault that is thrown stays in a simplified script. -/
theorem simplify_thrown (front behind : List Stmt) (x : Pos) :
    Simplify.body (.declare "code" (.const (.string "") p) false q ::
        (front ++ .throw (some (.const v u)) w :: behind ++ [.expr (.variable "code" x)])) =
      .declare "code" (.const (.string "") p) false q ::
        Simplify.prune false (Simplify.stmts true front) ++ .throw (some (.const v u)) w ::
          (Simplify.prune false (Simplify.stmts true behind) ++ [.expr (.variable "code" x)]) := by
  have thrown : Simplify.stmt true (.throw (some (.const v u)) w) = .throw (some (.const v u)) w := rfl
  rw [Outline.simplify_script, Simplify.stmts_append, Simplify.stmts, thrown, Simplify.prune_false,
    List.filter_append, List.filter_cons_of_pos (by rfl), ← Simplify.prune_false,
    ← Simplify.prune_false]
  simp

/-- Behind statements that append a text, a fault that is thrown ends the script. -/
theorem ends_thrown {front : List Stmt} (behind : List Stmt) (x : Pos)
    (fills : Performs fs below (Simplify.prune false (Simplify.stmts true front))
      [⟨"code", .string "", false⟩] r scope' r') :
    Ends (stmts (engine fs) below (Simplify.body (.declare "code" (.const (.string "") p) false q ::
        (front ++ .throw (some (.const v u)) w :: behind ++ [.expr (.variable "code" x)]))))
      [] r (.error (.fault (.here (.thrown v) (some w)))) scope' r' := by
  have declared : Ends (stmt (engine fs) below (.declare "code" (.const (.string "") p) false q))
      [] r (.ok .unit) [⟨"code", .string "", false⟩] r := by
    apply Ends.bind Ends.tick
    exact Ends.bind ends_const (Ends.bind Ends.declare Ends.pure)
  rw [simplify_thrown]
  exact ends_stmts_error (.cons declared fills) ends_throw

end Script.Eval

namespace Emission

variable {program : Program} {options : Options} {spec : Spec} {failure : Failure}

/-- A program that comes to a fault that is about no name fails at once and leaves the spec. -/
theorem recover_of_fault {emitter : Emitter} {scope' : List Binding} {r' : Resolver}
    (unbounded : options.maxOperations = 0) (named : undefinedVariable? failure = none)
    (ends : Eval.Ends (Eval.stmts (Eval.engine program.functions)
      (Eval.script (Eval.engine program.functions) Eval.levelLimit) program.body) []
      (Resolver.start spec options.deferred) (.error (.fault failure)) scope' r')
    (later : Resolver.Later (Resolver.start spec options.deferred) [] r') :
    recover emitter program options [] 0 (Resolver.start spec options.deferred) =
      (.error (.evaluation (emitter.describe failure)), spec) := by
  obtain ⟨n, run⟩ := ends (Machine.start []) rfl
  change (Eval.script ⟨program.functions, 0, true⟩ (Eval.levelLimit + 1) program.body
    (Machine.start [])).run Resolver.answerer _ = _ at run
  have failed : attempt program options (Resolver.start spec options.deferred) =
      (.failed failure, r') := by
    rw [attempt, unbounded, Program.evaluate, evaluate, Inquiry.run_bind, run]
    rfl
  have unrecorded : r'.undefined = [] := later.undefined
  have found : discovered (.failed failure) r' = [] := by
    simp only [discovered, Resolver.takeUndefined, named, unrecorded]
  rw [recover_of_run failed found, later.spec]
  rfl

end Emission

end Stencil
