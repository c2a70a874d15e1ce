import Stencil.Generation
import Stencil.Proofs.Expansion
import Stencil.Proofs.Recovery
import Stencil.Proofs.Script.Running

/-!
# Processing a file again

A generation that succeeds leaves a spec in which nothing is missing.  Its output is that of a last
run, which began with this spec and found every name, and a resolver that starts anew gives the same
answers.  The emitter is the same one, too: the expressions of includes are read before the run, and
a sum of literals and names that had a value then keeps it when fields are added.
-/

namespace Stencil

open Script

/-! ## Sums of literals and names -/

namespace Script

/-- Whether an expression is put together from literals and names by `+`. -/
def Expr.isSum : Expr → Bool
  | .const .. | .variable .. => true
  | .operator "+" [l, r] _ => l.isSum && r.isSum
  | _ => false

theorem Expr.isSum_simplify {e : Expr} (h : e.isSum = true) :
    (Simplify.expr e).isSum = true := by
  induction e using Expr.isSum.induct with
  | case1 v p => rfl
  | case2 n p => rfl
  | case3 l r p ihl ihr =>
    rw [isSum, Bool.and_eq_true] at h
    change (Simplify.fold "+" [Simplify.expr l, Simplify.expr r] p).isSum = true
    unfold Simplify.fold
    split
    · -- Two literals are added up, unless this fails.
      split
      · rfl
      · simp_all [isSum]
    · rw [isSum, ihl h.1, ihr h.2]
      rfl
  | case4 e no_literal no_name no_sum => simp [isSum] at h

namespace Eval

variable {α β : Type} {scope more : List Binding}

/--
Among the variables `scope` an evaluation alone fails, or it comes to a value that it also comes to
among the variables `more`.
-/
def Carries (e : Eval α) (scope more : List Binding) : Prop :=
  ∀ n,
    (∃ failure m, ((e ⟨scope, [], none, n⟩).run Inclusion.alone ()).1 =
      (.error (.fault failure), m)) ∨
    ∃ a n', ((e ⟨scope, [], none, n⟩).run Inclusion.alone ()).1 = (.ok a, ⟨scope, [], none, n'⟩) ∧
      ((e ⟨more, [], none, n⟩).run Inclusion.alone ()).1 = (.ok a, ⟨more, [], none, n'⟩)

namespace Carries

theorem ok (a : α) : Carries (Eval.ok a) scope more := fun n => .inr ⟨a, n, rfl, rfl⟩

theorem pure (a : α) : Carries (Pure.pure a) scope more := ok a

theorem fault (t : Trouble) (p : Pos) : Carries (Eval.fault t p : Eval α) scope more :=
  fun _ => .inl ⟨_, _, rfl⟩

theorem tick (p : Pos) : Carries (Eval.tick 0 p) scope more :=
  fun n => .inr ⟨(), n + 1, rfl, rfl⟩

theorem bind {e : Eval α} {f : α → Eval β} (first : Carries e scope more)
    (second : ∀ a, Carries (f a) scope more) : Carries (e >>= f) scope more := by
  intro n
  have split (m : Machine) : ((e >>= f) m).run Inclusion.alone () = ((e m).bind _).run _ () := rfl
  simp only [split, Inquiry.run_bind]
  rcases first n with ⟨failure, m, failed⟩ | ⟨a, n', before, after⟩
  · rw [failed]
    exact .inl ⟨failure, m, rfl⟩
  · rw [before, after]
    exact second a n'

theorem located (p : Pos) (result : Except Trouble α) :
    Carries (Eval.located p result) scope more := by
  cases result with
  | ok a => exact ok a
  | error t => exact fault t p

end Carries

/-- Each variable of `scope` is the one of its name among `more`, and it is not shared. -/
def Kept (scope more : List Binding) : Prop :=
  ∀ name b, scope.find? (·.name = name) = some b →
    more.find? (·.name = name) = some b ∧ ∀ id, b.value ≠ .cell id

theorem run_lookup_of_none {name : String} {p : Pos} {n : Nat}
    (h : scope.find? (·.name = name) = none) :
    ((lookup ⟨[], 0, false⟩ name p ⟨scope, [], none, n⟩).run Inclusion.alone ()).1 =
      (.error (.fault (.here (.unknownVariable name) (some p))), ⟨scope, [], none, n⟩) := by
  simp only [lookup, Bind.bind, bind, binding?, Inquiry.done_bind, h]
  rfl

theorem run_lookup_of_some {name : String} {p : Pos} {n : Nat} {b : Binding}
    (h : scope.find? (·.name = name) = some b) (unshared : ∀ id, b.value ≠ .cell id) :
    ((lookup ⟨[], 0, false⟩ name p ⟨scope, [], none, n⟩).run Inclusion.alone ()).1 =
      (.ok ⟨b.value, b.constant, true⟩, ⟨scope, [], none, n⟩) := by
  have own (m : Machine) : contents b.value m = .done (.ok b.value, m) := by
    rw [contents]
    exact unshared
  simp only [lookup, Bind.bind, bind, binding?, Inquiry.done_bind, h, own]
  rfl

namespace Carries

theorem lookup (kept : Kept scope more) (name : String) (p : Pos) :
    Carries (Eval.lookup ⟨[], 0, false⟩ name p) scope more := by
  intro n
  cases found : scope.find? (·.name = name) with
  | none => exact .inl ⟨_, _, run_lookup_of_none found⟩
  | some b =>
    obtain ⟨still, unshared⟩ := kept name b found
    exact .inr ⟨_, _, run_lookup_of_some found unshared, run_lookup_of_some still unshared⟩

theorem expr {e : Expr} (h : e.isSum = true) (kept : Kept scope more) (below : Below) :
    Carries (Eval.expr ⟨[], 0, false⟩ below e) scope more := by
  induction e using Expr.isSum.induct with
  | case1 v p => exact bind (tick p) fun _ => pure v
  | case2 n p => exact bind (tick p) fun _ => bind (lookup kept n p) fun found => pure found.value
  | case3 l r p ihl ihr =>
    rw [Expr.isSum, Bool.and_eq_true] at h
    have operands : Carries (Eval.exprs ⟨[], 0, false⟩ below [l, r]) scope more :=
      bind (ihl h.1) fun _ => bind (bind (ihr h.2) fun _ => bind (ok []) fun _ => pure _)
        fun _ => pure _
    refine bind (tick p) fun _ => bind operands fun vs => ?_
    cases Operator.apply "+" vs with
    | none => exact fault _ p
    | some result => exact located p result
  | case4 e no_literal no_name no_sum => simp [Expr.isSum] at h

end Carries

end Eval

/-- A sum that has a value keeps it when there are more variables. -/
theorem evaluate_of_isSum {e : Expr} {scope more : List Binding} {v : Value}
    (h : e.isSum = true) (kept : Eval.Kept scope more)
    (given : ((evaluate ⟨[], 0, false⟩ [.expr e] scope).run Inclusion.alone ()).1 = .value v) :
    ((evaluate ⟨[], 0, false⟩ [.expr e] more).run Inclusion.alone ()).1 = .value v := by
  have statement : Eval.Carries (Eval.script ⟨[], 0, false⟩ (Eval.levelLimit + 1) [.expr e])
      scope more := Eval.Carries.bind (Eval.Carries.tick _) fun _ => Eval.Carries.expr h kept _
  simp only [evaluate, Machine.start, Inquiry.run_bind] at given ⊢
  rcases statement 0 with ⟨failure, m, failed⟩ | ⟨a, n, before, after⟩
  · rw [failed] at given
    simp at given
  · rw [before] at given
    rw [after]
    exact given

end Script

/-! ## Recompilation -/

namespace Inclusion

/-- Whether an include expression is put together from literals and names by `+`. -/
def isSum (expr : String) : Bool :=
  match Script.parseExpression expr with
  | .ok (e, functions) => e.isSum && functions.isEmpty
  | .error _ => false

theorem exists_of_isSum {expr : String} (h : isSum expr = true) :
    ∃ e, Script.parseExpression expr = .ok (e, []) ∧ e.isSum = true := by
  unfold isSum at h
  split at h
  · rename_i e functions parsed
    rw [Bool.and_eq_true, List.isEmpty_iff] at h
    exact ⟨e, h.2 ▸ parsed, h.1⟩
  · simp at h

theorem find?_scope (spec : Spec) (name : String) :
    (scope spec).find? (·.name = name) =
      (spec.get? name).map fun v => ⟨name, Script.Value.ofJson v, true⟩ := by
  unfold scope Spec.get?
  induction spec.fields with
  | nil => rfl
  | cons field rest ih =>
    obtain ⟨n, v⟩ := field
    by_cases hn : n = name
    · simp [Fields.get?, hn]
    · simpa [Fields.get?, hn] using ih

variable {tree : FileTree} {before after : Spec} {added : List String} {expr : String}

theorem kept_scope (h : before.Extends added after) : Eval.Kept (scope before) (scope after) := by
  intro name b found
  rw [find?_scope] at found ⊢
  obtain ⟨json, known, rfl⟩ := Option.map_eq_some_iff.1 found
  exact ⟨by rw [h.get?_of_some known, Option.map_some], Eval.ofJson_ne_cell json⟩

/-- A target stays the same when fields are added. -/
theorem target_of_extends {relative : String} (h : before.Extends added after)
    (sum : isSum expr = true) (named : target before expr = .ok relative) :
    target after expr = .ok relative := by
  obtain ⟨e, parsed, is_sum⟩ := exists_of_isSum sum
  unfold target at named ⊢
  simp only [parsed] at named ⊢
  split at named
  · rename_i path value
    rw [evaluate_of_isSum (Expr.isSum_simplify is_sum) (kept_scope h) value]
    exact named
  · simp at named
  · simp at named
  · simp at named

theorem resolve_of_extends {included : List Path} {line : SourceLine} {inclusion : Inclusion}
    (h : before.Extends added after) (sum : isSum expr = true)
    (resolved : resolve tree before included expr line = .ok inclusion) :
    resolve tree after included expr line = .ok inclusion := by
  cases named : target before expr with
  | error why => simp [resolve, named] at resolved
  | ok relative =>
    rw [← resolved, resolve, resolve, named, target_of_extends h sum named]

end Inclusion

namespace Expansion

variable {tree : FileTree} {before after : Spec} {added : List String}

/-- An expansion that succeeds stays the same when fields are added. -/
theorem Expands.of_extends {rounds : Nat} {included : List Path} {lines : List SourceLine}
    {met : List Met} {outcome : Except Fault Expansion} {e : Expansion}
    (h : Expands tree before rounds included lines met outcome)
    (extended : before.Extends added after) (sums : ∀ m ∈ met, Inclusion.isSum m.expr = true)
    (done : outcome = .ok e) :
    Expands tree after rounds included lines met outcome := by
  induction h generalizing e with
  | done => exact .done
  | kept kind later ih =>
    obtain ⟨e', done, -⟩ := map_ok done
    exact .kept kind (ih sums done)
  | failed kind resolved => simp at done
  | refused kind resolved later ih =>
    obtain ⟨e', done, -⟩ := map_ok done
    obtain ⟨sum, later_sums⟩ := List.forall_mem_cons.1 sums
    obtain ⟨refused, rfl⟩ := Inclusion.resolveNext_eq_iff.1 resolved
    have again := Inclusion.resolve_of_extends extended sum refused
    exact .refused kind (Inclusion.resolveNext_eq_iff.2 ⟨again, rfl⟩) (ih later_sums done)
  | spliced kind resolved later ih =>
    obtain ⟨e', done, -⟩ := map_ok done
    obtain ⟨sum, later_sums⟩ := List.forall_mem_cons.1 sums
    obtain ⟨spliced, rfl⟩ := Inclusion.resolveNext_eq_iff.1 resolved
    have again := Inclusion.resolve_of_extends extended sum spliced
    exact .spliced kind (Inclusion.resolveNext_eq_iff.2 ⟨again, rfl⟩) (ih later_sums done)

end Expansion

theorem Spec.requestsEmbedding_of_extends {before after : Spec} {added : List String}
    (h : before.Extends added after) : after.requestsEmbedding = before.requestsEmbedding := by
  unfold requestsEmbedding view?
  simp only [List.foldl_cons, List.foldl_nil]
  rw [h.get?]
  split
  · rename_i new
    rw [h.absent _ new]
    rfl
  · rfl

/-! ## Runs in which nothing is missing -/

namespace Emission

variable {emitter : Emitter} {program : Script.Program} {options : Options}

/-- Run again with the final spec, a script gives its output at once. -/
theorem recover_again {spec after : Spec} {emission : Emission}
    (h : recover emitter program options [] 0 (Resolver.start spec options.deferred) =
      (.ok emission, after)) :
    recover emitter program options [] 0 (Resolver.start after options.deferred) =
      (.ok ⟨emission.output, [], 1⟩, after) := by
  obtain ⟨runs, -, recovers⟩ := recover_recovers emitter program options [] 0
    (Resolver.start spec options.deferred) (by simp)
  rw [h] at recovers
  rcases recovers.settled (fresh_start spec options.deferred) rfl with
    endless | ⟨count, names, exhausted⟩ | ⟨result, names, count, complete, outcome⟩
  · simp at endless
  · simp at exhausted
  · -- Only a text is concluded with success.
    cases result with
    | output text =>
      obtain rfl : emission = ⟨text, names, count⟩ := Except.ok.inj outcome
      exact complete.recover
    | failed failure => simp [conclude] at outcome
    | unfinished => simp [conclude] at outcome

end Emission

namespace Emitter

theorem run_again {emitter : Emitter} {options : Emission.Options} {spec after : Spec}
    {emission : Emission} (h : emitter.run options spec = (.ok emission, after)) :
    emitter.run options after = (.ok ⟨emission.output, [], 1⟩, after) := by
  unfold run at h ⊢
  cases parsed : emitter.program with
  | error fault => simp [parsed] at h
  | ok program =>
    simp only [parsed] at h ⊢
    exact Emission.recover_again h

end Emitter

/-! ## Generation -/

namespace Generation

variable {config : Config} {tree : FileTree} {before after : Spec} {added : List String}

/-- A document is compiled to the same emitter when fields are added to the spec. -/
theorem compile_of_extends {document : Document} {emitter : Emitter} {rounds : Nat}
    {met : List Met} {outcome : Except Fault Expansion} (extended : before.Extends added after)
    (expands : Expansion.Expands tree before rounds [tree.canonical document.path]
      (document.lines ++ [Emitter.closing document]) met outcome)
    (sums : ∀ m ∈ met, Inclusion.isSum m.expr = true)
    (compiled : compile config tree before document = .ok emitter) :
    compile config tree after document = .ok emitter := by
  simp only [compile, Spec.requestsEmbedding_of_extends extended, bind, Except.bind,
    Emitter.compile_eq_map] at compiled ⊢
  cases located : Prelude.locate tree document config.preludeName with
  | error fault => simp [located] at compiled
  | ok prelude =>
    simp only [located] at compiled ⊢
    obtain ⟨e, expanded, -⟩ := Expansion.map_ok compiled
    rw [expands.eq_ofLines] at expanded compiled
    rw [(expands.of_extends extended sums expanded).eq_ofLines]
    exact compiled

theorem compileFile_of_read {path : Path} {document : Document}
    (read : Document.read tree path = .ok document) (spec : Spec) :
    compileFile config tree spec path = compile config tree spec document := by
  rw [compileFile, read]
  rfl

theorem ofFile_of_compileFile {spec : Spec} {path : Path} {emitter : Emitter}
    (no_dump : config.dumpDir = none)
    (compiled : compileFile config tree spec path = .ok emitter) :
    (ofFile config tree spec path).result = (emitter.run (options config) spec).1 ∧
      (ofFile config tree spec path).spec = (emitter.run (options config) spec).2 ∧
      (ofFile config tree spec path).tree = tree := by
  simp [ofFile, compiled, dump, no_dump]

end Generation

end Stencil
