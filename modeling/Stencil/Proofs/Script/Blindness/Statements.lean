import Stencil.Proofs.Script.Neutral
import Stencil.Proofs.Script.Blindness.Calls
import Stencil.Emission

/-!
# Neutral scripts are blind to the mode

A neutral script without places is evaluated to the same value in both modes: where it asks for the
mode, the statements on both sides are one and the same.  Construct by construct, its evaluation is
blind.
-/

namespace Stencil.Script

open Stencil (Resolver)

namespace Eval

variable {engine : Engine} {below : Below} {name : String} {p : Pos} {v : Value} {vs : List Value}

/-! ## Loops and handlers -/

theorem blind_round {body : Eval Value} (h : IsBlind body) : IsBlind (round body) := by
  refine h.outcome.bind fun r => ?_
  split
  · exact .pure
  · exact .pure
  · exact .pure
  · exact .stop

theorem blind_rounds {one : Eval (Option Value)} (h : IsBlind one) (n : Nat) :
    IsBlind (rounds n one) := by
  induction n with
  | zero => exact .stop
  | succ n ih =>
    refine h.bind fun left => ?_
    cases left with
    | some v => exact .pure
    | none => exact ih

section

variable {one : Value → Nat → Eval (Option Value)}

theorem blind_eachItem (h : ∀ v i, IsBlind (one v i)) (i : Nat) (items : List Value) :
    IsBlind (eachItem one i items) := by
  induction items generalizing i with
  | nil => exact .ok
  | cons v rest ih =>
    refine (h v i).bind fun left => ?_
    cases left with
    | some r => exact .pure
    | none => exact ih (i + 1)

theorem blind_eachNumber (h : ∀ v i, IsBlind (one v i)) (first : Int) (i count : Nat) :
    IsBlind (eachNumber one first i count) := by
  induction count generalizing i with
  | zero => exact .ok
  | succ count ih =>
    refine (h _ i).bind fun left => ?_
    cases left with
    | some r => exact .pure
    | none => exact ih (i + 1)

theorem blind_eachOf (h : ∀ v i, IsBlind (one v i)) : IsBlind (eachOf v p one) := by
  unfold eachOf
  split
  · exact blind_eachNumber h _ _ _
  · split
    · exact blind_eachItem h _ _
    · exact .fault

end

theorem blind_boolean : IsBlind (boolean p v) := by
  unfold boolean
  split
  · exact .ok
  · exact .fault

theorem blind_attempt {body : Eval Value} {handler : Value → Eval Value} (h : IsBlind body)
    (handled : ∀ v, IsBlind (handler v)) : IsBlind (attempt body handler) := by
  refine h.outcome.bind fun r => ?_
  split
  · refine .ite ((handled _).outcome.bind fun r => ?_) .stop
    split
    · exact .stop
    · exact (IsBlind.ofOutcome r).bind fun _ => .pure
  · exact .ofOutcome _

theorem blind_capture (captures : List (String × Pos))
    (h : ∀ c ∈ captures, c.1 ≠ Resolver.modeName) : IsBlind (capture engine captures) := by
  induction captures with
  | nil => exact .ok
  | cons c rest ih =>
    refine IsBlind.binding?.bind fun found => ?_
    have others : IsBlind (capture engine rest) := ih fun c hc => h c (List.mem_cons_of_mem _ hc)
    cases found with
    | some b => exact IsBlind.share.bind fun _ => others.bind fun _ => .pure
    | none =>
      have looked : IsBlind (lookup engine c.1 c.2) := blind_lookup (h c List.mem_cons_self)
      exact looked.bind fun _ => IsBlind.pure.bind fun _ => others.bind fun _ => .pure

/-- Of the functions that are no library, only `eval` runs other code than the script has. -/
theorem BlindBelow.special (h : BlindBelow engine below) {places : List Pos} {e : Eval Value}
    (other : name ≠ "eval") (found : special engine below name vs places p = some e) :
    IsBlind e := by
  unfold Eval.special at found
  split at found
  all_goals first
    | exact absurd rfl other
    | cases found
    | skip
  · exact .ok
  · exact .fault
  · exact h.callPointer.bind fun _ => .pure
  · exact .fault
  · exact .ok
  · exact .fault
  · exact IsBlind.binding?.bind fun _ => .pure
  · exact .ok
  · exact .stop
  · exact .stop

/-! ## Expressions and statements -/

theorem bind_bind {α β γ : Type} (e : Eval α) (f : α → Eval β) (g : β → Eval γ) :
    (e >>= f) >>= g = e >>= fun a => f a >>= g := by
  funext m
  change ((e m).bind _).bind _ = (e m).bind _
  rw [Inquiry.bind_bind]
  congr 1
  funext result
  obtain ⟨r, m'⟩ := result
  cases r <;> rfl

theorem blind_mode {α : Type} {f : Option Value → Eval α} (others : ∀ v, IsBlind (f v))
    (same : ∀ b b', f (some (.bool b)) = f (some (.bool b'))) :
    IsBlind (Eval.field Resolver.modeName >>= f) :=
  fun m => ⟨fun v => others v m, fun _ b b' => congrFun (same b b') m⟩

/-- Two copies behind the mode: which one is taken cannot be told. -/
theorem blind_copies {again : Eval Value} {q : Pos} (h : IsBlind again) :
    IsBlind (do
      if ← boolean q (← expr engine below (.variable Resolver.modeName p)) then again else again) := by
  have chosen (v : Value) : IsBlind (boolean q v >>= fun c => if c then again else again) :=
    blind_boolean.bind fun _ => .ite h h
  rw [Eval.expr, bind_bind]
  refine IsBlind.tick.bind fun _ => ?_
  rw [lookup, bind_bind, bind_bind]
  refine IsBlind.binding?.bind fun found => ?_
  cases found with
  | some b =>
    exact (IsBlind.contents.bind fun _ => .pure).bind fun _ => IsBlind.pure.bind fun v => chosen v
  | none =>
    dsimp only
    rw [bind_bind]
    refine blind_mode (fun v => ?_) fun b b' => by cases b <;> cases b' <;> rfl
    cases v with
    | some v => exact IsBlind.pure.bind fun _ => IsBlind.pure.bind fun v => chosen v
    | none =>
      dsimp only
      split
      · exact IsBlind.pure.bind fun _ => IsBlind.pure.bind fun v => chosen v
      · exact IsBlind.fault.bind fun _ => IsBlind.pure.bind fun v => chosen v

mutual

theorem BlindBelow.expr (h : BlindBelow engine below) :
    ∀ e : Expr, e.Keeps neutral → IsBlind (expr engine below (e.moved fun _ => Pos.start))
  | .const v p, _ => by
    rw [Expr.moved, Eval.expr]
    exact IsBlind.tick.bind fun _ => .pure
  | .interpolated parts p, neutral => by
    rw [Expr.moved, Eval.expr]
    exact IsBlind.tick.bind fun _ => (h.exprs parts neutral).bind fun _ => .pure
  | .array items p, neutral => by
    rw [Expr.moved, Eval.expr]
    exact IsBlind.tick.bind fun _ => (h.exprs items neutral).bind fun _ => .pure
  | .map fs p, neutral => by
    rw [Expr.moved, Eval.expr]
    exact IsBlind.tick.bind fun _ => (h.fields fs neutral).bind fun _ => .pure
  | .variable name p, neutral => by
    rw [Expr.moved, Eval.expr]
    exact IsBlind.tick.bind fun _ => (blind_lookup neutral).bind fun _ => .pure
  | .this p, _ => by
    rw [Expr.moved, Eval.expr]
    refine IsBlind.tick.bind fun _ => IsBlind.machine.bind fun m => ?_
    split
    · exact .pure
    · exact .fault
  | .call name args p, ⟨other, neutral_args⟩ => by
    have plain (h_args : IsBlind (Eval.exprs engine below (movedExprs (fun _ => Pos.start) args))) :
        IsBlind (do
          Eval.tick engine.limit Pos.start
          let vs ← Eval.exprs engine below (movedExprs (fun _ => Pos.start) args)
          match Eval.special engine below name vs
            ((movedExprs (fun _ => Pos.start) args).map Expr.pos) Pos.start with
          | some e => e
          | none => Eval.call engine below name vs Pos.start) := by
      refine IsBlind.tick.bind fun _ => h_args.bind fun vs => ?_
      split
      · exact h.special other ‹_›
      · exact h.call
    rw [Expr.moved]
    rcases args with _ | ⟨first, more⟩
    · rw [Eval.expr]
      · exact plain (h.exprs [] neutral_args)
      · simp [movedExprs]
    · cases first with
      | «variable» x q =>
        obtain ⟨neutral_first, neutral_more⟩ := neutral_args
        rw [movedExprs, Expr.moved, Eval.expr]
        refine IsBlind.tick.bind fun _ => .ite ?_ ?_
        · refine IsBlind.binding?.bind fun found => ?_
          split <;> exact .pure
        · refine (h.exprs more neutral_more).bind fun rest => IsBlind.tick.bind fun _ =>
            (blind_lookup neutral_first).bind fun found => ?_
          split
          · exact h.special other ‹_›
          · split
            · exact (h.invoke (mem_of_function? ‹_›)).bind fun _ => .pure
            · exact h.library.bind fun _ => blind_putBack.bind fun _ => .pure
      | _ =>
        rw [Eval.expr]
        · exact plain (h.exprs _ neutral_args)
        · simp [movedExprs, Expr.moved]
  | .operator op args p, neutral => by
    rw [Expr.moved, Eval.expr]
    refine IsBlind.tick.bind fun _ => (h.exprs args neutral).bind fun vs => ?_
    split
    · exact .located _
    · exact .fault
  | .both l r p, ⟨left, right⟩ => by
    rw [Expr.moved, Eval.expr]
    refine IsBlind.tick.bind fun _ => (h.expr l left).bind fun _ => blind_boolean.bind fun _ => ?_
    exact .ite ((h.expr r right).bind fun _ => blind_boolean.bind fun _ => .pure) .pure
  | .either l r p, ⟨left, right⟩ => by
    rw [Expr.moved, Eval.expr]
    refine IsBlind.tick.bind fun _ => (h.expr l left).bind fun _ => blind_boolean.bind fun _ => ?_
    exact .ite .pure ((h.expr r right).bind fun _ => blind_boolean.bind fun _ => .pure)
  | .coalesce l r p, ⟨left, right⟩ => by
    rw [Expr.moved, Eval.expr]
    refine IsBlind.tick.bind fun _ => (h.expr l left).bind fun v => ?_
    split
    · exact h.expr r right
    · exact .pure
  | .chain root ss, ⟨neutral_root, neutral_steps⟩ => by
    have followed := h.accesses ss neutral_steps
    rw [Expr.moved]
    cases root with
    | «variable» name p =>
      rw [Expr.moved, Eval.expr]
      exact followed.bind fun as => IsBlind.tick.bind fun _ =>
        (blind_lookup neutral_root).bind fun found =>
          (h.walk as _ _).bind fun _ => blind_putBack.bind fun _ => .pure
    | this p =>
      rw [Expr.moved, Eval.expr]
      refine followed.bind fun as => IsBlind.tick.bind fun _ => IsBlind.machine.bind fun m => ?_
      split
      · exact .fault
      · refine (h.walk as _ _).bind fun _ => ?_
        dsimp only
        split
        · exact IsBlind.update.bind fun _ => .pure
        · exact .pure
    | _ =>
      rw [Eval.expr]
      · exact followed.bind fun as => (h.expr _ neutral_root).bind fun _ =>
          (h.walk as _ _).bind fun _ => .pure
      all_goals simp [Expr.moved]
  | .statement s, neutral => by
    rw [Expr.moved, Eval.expr]
    exact h.stmt s neutral
  | .closure f captures p, neutral => by
    have others : ∀ c ∈ captures.map fun c => (c.1, Pos.start), c.1 ≠ Resolver.modeName := by
      rw [List.forall_mem_map]
      exact fun c hc eq => neutral (List.mem_map.2 ⟨c, hc, eq⟩)
    rw [Expr.moved, Eval.expr]
    exact IsBlind.tick.bind fun _ => (blind_capture _ others).bind fun _ => .pure

theorem BlindBelow.exprs (h : BlindBelow engine below) : ∀ es : List Expr, exprsKeep neutral es →
    IsBlind (exprs engine below (movedExprs (fun _ => Pos.start) es))
  | [], _ => .ok
  | e :: rest, ⟨first, others⟩ =>
    (h.expr e first).bind fun _ => (h.exprs rest others).bind fun _ => .pure

theorem BlindBelow.fields (h : BlindBelow engine below) : ∀ fs : List Field, fieldsKeep neutral fs →
    IsBlind (fields engine below (movedFields (fun _ => Pos.start) fs))
  | [], _ => .ok
  | .mk _ e :: rest, ⟨first, others⟩ =>
    (h.expr e first).bind fun _ => (h.fields rest others).bind fun _ => .pure

theorem BlindBelow.accesses (h : BlindBelow engine below) : ∀ ss : List Step, stepsKeep neutral ss →
    IsBlind (accesses engine below (movedSteps (fun _ => Pos.start) ss))
  | [], _ => .ok
  | .property _ _ _ :: rest, ⟨_, others⟩ => (h.accesses rest others).bind fun _ => .pure
  | .index e _ _ :: rest, ⟨first, others⟩ =>
    (h.expr e first).bind fun _ => (h.accesses rest others).bind fun _ => .pure
  | .method _ args _ _ :: rest, ⟨first, others⟩ =>
    (h.exprs args first).bind fun _ => (h.accesses rest others).bind fun _ => .pure

theorem BlindBelow.stmt (h : BlindBelow engine below) :
    ∀ s : Stmt, s.Keeps neutral → IsBlind (stmt engine below (s.moved fun _ => Pos.start))
  | .skip p, _ => .ok
  | .expr e, neutral => by
    rw [Stmt.moved, Eval.stmt]
    exact IsBlind.tick.bind fun _ => h.expr e neutral
  | .declare name value constant p, neutral => by
    rw [Stmt.moved, Eval.stmt]
    exact IsBlind.tick.bind fun _ => (h.expr value neutral).bind fun _ =>
      IsBlind.declare.bind fun _ => .pure
  | .assign op target value p, ⟨neutral_target, neutral_value⟩ => by
    have first := h.expr value neutral_value
    rw [Stmt.moved]
    cases target with
    | «variable» name q =>
      rw [Expr.moved, Eval.stmt]
      refine IsBlind.tick.bind fun _ => first.bind fun v => IsBlind.tick.bind fun _ =>
        (blind_lookup neutral_target).bind fun found => .ite .fault ?_
      exact blind_combine.bind fun _ => IsBlind.assign.bind fun _ => .pure
    | this q =>
      rw [Expr.moved, Eval.stmt]
      refine IsBlind.tick.bind fun _ => first.bind fun v => IsBlind.machine.bind fun m => ?_
      split
      · exact .fault
      · exact .ite .fault (blind_combine.bind fun _ => IsBlind.update.bind fun _ => .pure)
    | chain root ss =>
      obtain ⟨neutral_root, neutral_steps⟩ := neutral_target
      have followed := h.accesses ss neutral_steps
      rw [Expr.moved]
      cases root with
      | «variable» name q =>
        rw [Expr.moved, Eval.stmt]
        refine IsBlind.tick.bind fun _ => first.bind fun v => followed.bind fun as =>
          IsBlind.tick.bind fun _ => (blind_lookup neutral_root).bind fun found => .ite .fault ?_
        exact (blind_store as _).bind fun _ => IsBlind.assign.bind fun _ => .pure
      | this q =>
        rw [Expr.moved, Eval.stmt]
        refine IsBlind.tick.bind fun _ => first.bind fun v => followed.bind fun as =>
          IsBlind.machine.bind fun m => ?_
        split
        · exact .fault
        · exact .ite .fault ((blind_store as _).bind fun _ => IsBlind.update.bind fun _ => .pure)
      | _ => exact .ok
    | _ => exact .ok
  | .block body p, neutral => by
    rw [Stmt.moved, Eval.stmt]
    exact IsBlind.tick.bind fun _ => (h.stmts body neutral).enclosed
  | .branch c yes no p, ⟨condition, neutral_yes, neutral_no⟩ => by
    have otherwise := h.stmt no neutral_no
    rw [Stmt.moved, Eval.stmt]
    refine IsBlind.tick.bind fun _ => ?_
    rcases condition with neutral | ⟨⟨q, rfl⟩, same, -⟩
    · exact (h.expr c neutral).bind fun _ => blind_boolean.bind fun _ =>
        .ite (h.stmt yes neutral_yes) otherwise
    · rw [show yes.moved (fun _ => Pos.start) = no.moved fun _ => Pos.start from same]
      exact blind_copies otherwise
  | .select subject cs p, ⟨neutral_subject, neutral_cases⟩ => by
    rw [Stmt.moved, Eval.stmt]
    exact IsBlind.tick.bind fun _ => (h.expr subject neutral_subject).bind fun v =>
      h.cases _ cs neutral_cases
  | .loop body p, neutral => by
    rw [Stmt.moved, Eval.stmt]
    exact IsBlind.tick.bind fun _ => blind_rounds (blind_round (h.stmt body neutral)) _
  | .repeatWhile c body p, ⟨neutral_c, neutral_body⟩ => by
    rw [Stmt.moved, Eval.stmt]
    refine IsBlind.tick.bind fun _ => blind_rounds ?_ _
    exact (h.expr c neutral_c).bind fun _ => blind_boolean.bind fun _ =>
      .ite (blind_round (h.stmt body neutral_body)) .pure
  | .repeatAfter body c wanted p, ⟨neutral_body, neutral_c⟩ => by
    rw [Stmt.moved, Eval.stmt]
    refine IsBlind.tick.bind fun _ => blind_rounds ?_ _
    refine (blind_round (h.stmt body neutral_body)).bind fun left => ?_
    cases left with
    | some v => exact .pure
    | none =>
      exact (h.expr c neutral_c).bind fun _ => blind_boolean.bind fun _ => .ite .pure .pure
  | .each name counter subject body p, ⟨neutral_subject, neutral_body⟩ => by
    have once (item : Value) (i : Nat) (fixed : Bool) : IsBlind (Eval.enclosed do
        match counter with
        | some c => Eval.declare c (.int i) false
        | none => Eval.ok ()
        Eval.declare name item fixed
        round (Eval.stmt engine below (body.moved fun _ => Pos.start))) := by
      apply IsBlind.enclosed
      have declared : IsBlind (do
          Eval.declare name item fixed
          round (Eval.stmt engine below (body.moved fun _ => Pos.start))) :=
        IsBlind.declare.bind fun _ => blind_round (h.stmt body neutral_body)
      cases counter with
      | some c => exact IsBlind.declare.bind fun _ => declared
      | none => exact IsBlind.ok.bind fun _ => declared
    have looped (v : Value) (fixed : Bool) : IsBlind (eachOf v
        (subject.moved fun _ => Pos.start).pos fun item i => Eval.enclosed do
          match counter with
          | some c => Eval.declare c (.int i) false
          | none => Eval.ok ()
          Eval.declare name item fixed
          round (Eval.stmt engine below (body.moved fun _ => Pos.start))) :=
      blind_eachOf fun item i => once item i fixed
    have evaluated := h.expr subject neutral_subject
    rw [Stmt.moved]
    cases subject with
    | «variable» n q =>
      rw [Expr.moved, Eval.stmt]
      exact IsBlind.tick.bind fun _ => IsBlind.tick.bind fun _ =>
        (blind_lookup neutral_subject).bind fun _ => IsBlind.pure.bind fun o => looped o.1 o.2
    | _ =>
      rw [Eval.stmt]
      exact IsBlind.tick.bind fun _ => evaluated.bind fun _ =>
        IsBlind.pure.bind fun o => looped o.1 o.2
  | .attempt body name handler p, ⟨neutral_body, neutral_handler⟩ => by
    rw [Stmt.moved, Eval.stmt]
    refine IsBlind.tick.bind fun _ => blind_attempt (h.stmt body neutral_body) fun v => ?_
    apply IsBlind.enclosed
    cases name with
    | some n => exact IsBlind.declare.bind fun _ => h.stmt handler neutral_handler
    | none => exact IsBlind.ok.bind fun _ => h.stmt handler neutral_handler
  | .ret value p, neutral => by
    rw [Stmt.moved, Eval.stmt]
    exact IsBlind.tick.bind fun _ => (h.optional value neutral).bind fun _ => .stop
  | .throw value p, neutral => by
    rw [Stmt.moved, Eval.stmt]
    exact IsBlind.tick.bind fun _ => (h.optional value neutral).bind fun _ => .fault
  | .leave value p, neutral => by
    rw [Stmt.moved, Eval.stmt]
    exact IsBlind.tick.bind fun _ => (h.optional value neutral).bind fun _ => .stop
  | .next p, _ => by
    rw [Stmt.moved, Eval.stmt]
    exact IsBlind.tick.bind fun _ => .stop
  | .load path p, neutral => by
    rw [Stmt.moved, Eval.stmt]
    refine IsBlind.tick.bind fun _ => (h.expr path neutral).bind fun v => ?_
    split <;> exact .fault

theorem BlindBelow.optional (h : BlindBelow engine below) : ∀ e : Option Expr, optionKeeps neutral e →
    IsBlind (optional engine below (movedOption (fun _ => Pos.start) e))
  | none, _ => .ok
  | some e, neutral => h.expr e neutral

theorem BlindBelow.stmts (h : BlindBelow engine below) : ∀ ss : List Stmt, stmtsKeep neutral ss →
    IsBlind (stmts engine below (movedStmts (fun _ => Pos.start) ss))
  | [], _ => .ok
  | [s], ⟨neutral, _⟩ => h.stmt s neutral
  | s :: next :: rest, ⟨first, others⟩ =>
    (h.stmt s first).bind fun _ => h.stmts (next :: rest) others

theorem BlindBelow.cases (h : BlindBelow engine below) (tried : Case → Bool) :
    ∀ cs : List Case, casesKeep neutral cs →
      IsBlind (cases engine below tried (movedCases (fun _ => Pos.start) cs))
  | [], _ => .ok
  | .mk patterns guard body :: rest, ⟨neutral_guard, neutral_body, others⟩ => by
    have continued (chosen : Bool) : IsBlind (if chosen
        then Eval.stmt engine below (body.moved fun _ => Pos.start)
        else Eval.cases engine below tried (movedCases (fun _ => Pos.start) rest)) :=
      .ite (h.stmt body neutral_body) (h.cases tried rest others)
    rw [movedCases, Case.moved, Eval.cases]
    refine .ite (IsBlind.pure.bind continued) (.ite ?_ (IsBlind.pure.bind continued))
    exact (h.expr guard neutral_guard).bind fun _ => blind_boolean.bind continued

end

/-! ## Programs -/

/-- The bodies of functions are evaluated with one level less, as long as there is one. -/
theorem blind_script {functions : List Function} {limit : Nat} {emitting : Bool}
    (h : ∀ f ∈ functions, f.body.Keeps neutral) (levels : Nat) {ss : List Stmt}
    (neutral : stmtsKeep neutral ss) :
    IsBlind (script ⟨functions.map (·.moved fun _ => Pos.start), limit, emitting⟩ levels
      (movedStmts (fun _ => Pos.start) ss)) := by
  induction levels generalizing ss with
  | zero => exact .stop
  | succ levels ih =>
    have lower : BlindBelow ⟨functions.map (·.moved fun _ => Pos.start), limit, emitting⟩
        (script ⟨functions.map (·.moved fun _ => Pos.start), limit, emitting⟩ levels) :=
      ⟨List.forall_mem_map.2 fun f hf => @ih [f.body] ⟨h f hf, trivial⟩⟩
    exact lower.stmts ss neutral

end Eval

theorem Program.Keeps.evaluate {program : Program} (h : program.Keeps neutral) (limit : Nat) :
    (program.atStart.evaluate limit).IsBlind := by
  have body : program.atStart.body = movedStmts (fun _ => Pos.start) program.body :=
    (movedStmts_eq_map _ _).symm
  refine Inquiry.IsBlind.bind ?_ fun result => ?_
  · rw [body]
    exact Eval.blind_script h.functions _ h.body _
  · split <;> trivial

end Stencil.Script

namespace Stencil.Emission

open Script

/-! ## Runs in both modes -/

variable {program : Program} {ceiling limit : Nat}

/-- A blind script comes to the same outcome in another mode, and the resolver learns the same. -/
theorem attempt_mode (h : (program.evaluate limit).IsBlind) (mode mode' : Bool) (r : Resolver) :
    attempt program ⟨ceiling, mode, limit⟩ { r with deferred := mode } =
      ((attempt program ⟨ceiling, mode', limit⟩ r).1,
        { (attempt program ⟨ceiling, mode', limit⟩ r).2 with deferred := mode }) := by
  simp only [attempt, h.run mode r]

theorem placeholds_mode (names : List String) (mode : Bool) (r : Resolver) :
    names.foldl (fun state n => state.placehold n) { r with deferred := mode } =
      { names.foldl (fun state n => state.placehold n) r with deferred := mode } := by
  induction names generalizing r with
  | nil => rfl
  | cons name rest ih => exact ih (r.placehold name)

theorem discovered_mode (result : Attempt) (mode : Bool) (r : Resolver) :
    discovered result { r with deferred := mode } = discovered result r := rfl

/-- However often a blind script is run again, it comes to the same outcome in both modes. -/
theorem recover_mode (h : (program.evaluate limit).IsBlind) (emitter : Emitter)
    (mode mode' : Bool) (missing : List String) (attempts : Nat) (r : Resolver) :
    recover emitter program ⟨ceiling, mode, limit⟩ missing attempts { r with deferred := mode } =
      recover emitter program ⟨ceiling, mode', limit⟩ missing attempts r := by
  induction missing, attempts, r using recover.induct program ⟨ceiling, mode', limit⟩ with
  | case1 missing attempts r result r' run found =>
    rw [recover, recover, attempt_mode h mode mode', run]
    simp only [discovered_mode, found]
    rfl
  | case2 missing attempts r r' name more run found =>
    rw [recover, recover, attempt_mode h mode mode', run]
    simp only [discovered_mode, found]
    rfl
  | case3 missing attempts r result r' run name more found beyond ended =>
    rw [recover, recover, attempt_mode h mode mode', run]
    simp only [discovered_mode, found, if_pos beyond]
    have placed := congrArg Resolver.spec
      (placeholds_mode (name :: more) mode r'.takeUndefined.2)
    exact congrArg (Prod.mk _) placed
  | case4 missing attempts r result r' run state name more found again few ended ih =>
    rw [recover, recover, attempt_mode h mode mode', run]
    simp only [discovered_mode, found, if_neg few]
    have placed := placeholds_mode (name :: more) mode r'.takeUndefined.2
    exact (congrArg (recover emitter program _ _ _) placed).trans ih

end Stencil.Emission
