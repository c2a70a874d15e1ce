import Stencil.Proofs.Script.Forks.Statements

/-!
# Expressions with forks

The readers of expressions, and with them all readers of a script: what is read of a row with forks
depends on the mode only between statements that look the same to a reader.
-/

namespace Stencil.Script

open Resolver (modeName)

namespace Parser

variable {fuel : Nat} {a : Around} {g g' : Margin} {r : Reading} {rule : ModeRule}

theorem exprsKeep_reverse {es : List Expr} (h : exprsKeep rule es) : exprsKeep rule es.reverse :=
  exprsKeep_iff.2 fun e he => exprsKeep_iff.1 h e (List.mem_reverse.1 he)

theorem exprsKeep_concat {es : List Expr} {e : Expr} (h : exprsKeep rule es) (he : e.Keeps rule) :
    exprsKeep rule (es ++ [e]) := by
  rw [exprsKeep_iff] at h ⊢
  simpa [or_imp, forall_and] using ⟨h, he⟩

theorem fieldsKeep_reverse {fs : List Field} (h : fieldsKeep rule fs) : fieldsKeep rule fs.reverse :=
  fieldsKeep_iff.2 fun name e hf => fieldsKeep_iff.1 h name e (List.mem_reverse.1 hf)

theorem addStep_keeps {root : Expr} {opened : Bool} {step : Step} (h : root.Keeps rule)
    (hs : step.Keeps rule) : (addStep root opened step).Keeps rule := by
  unfold addStep
  split
  · obtain ⟨first, steps⟩ := h
    refine ⟨first, ?_⟩
    rw [stepsKeep_iff] at steps ⊢
    simpa [or_imp, forall_and] using ⟨steps, hs⟩
  · exact ⟨h, hs, trivial⟩

variable (ih : Forking fuel)

include ih

theorem forks_expression (here : Within .ended g r) :
    Yields g r (expression (fuel + 1) a) (Expr.Keeps twinned) := by
  rw [expression]
  exact (ih.operand here).bind fun _ _ keeps here => ih.operation here keeps

theorem forks_operation {least : Nat} {left : Expr} (here : Within .ended g r)
    (keeps : left.Keeps twinned) :
    Yields g r (operation (fuel + 1) a least left) (Expr.Keeps twinned) := by
  have combined {op : Placed} {right : Expr} {s : Reading} (here : Within .ended g s)
      (keeps' : right.Keeps twinned) : Yields g s (do
        let a ← a.deeper
        operation fuel a least (← combine op.token left right op.pos)) (Expr.Keeps twinned) :=
    (Yields.deeper here).bind fun _ _ _ here => (Yields.combine here keeps keeps').bind
      fun _ _ keeps here => ih.operation here keeps
  rw [operation_succ]
  refine Leaves.peek_bind ?_
  dsimp only
  split
  · exact Yields.pure keeps here
  · rename_i binds
    have positive : 0 < precedence (ahead r).token := by
      refine Nat.pos_of_ne_zero fun zero => binds ?_
      have loose : strength a.inPattern (ahead r).token = 0 :=
        Nat.le_zero.1 (zero ▸ strength_le a.inPattern (ahead r).token)
      have left : groupsRight (ahead r).token = false := by
        rw [groupsRight, decide_eq_false_iff_not]
        intro power
        rw [power] at zero
        exact absurd zero (by decide)
      rw [loose, left]
      cases least <;> simp
    have steady : IsSteady (ahead r).token :=
      isSteady_of (P := fun t => 0 < precedence t) positive (by decide)
    refine (Yields.take here steady).bind fun _ s _ here => ?_
    refine (ih.operand here).bind fun right s keeps' here => ?_
    refine Leaves.peek_bind ?_
    split
    · exact (ih.operation here keeps').bind fun _ _ keeps' here => combined here keeps'
    · exact combined here keeps'

theorem forks_operand (here : Within .ended g r) :
    Yields g r (operand (fuel + 1) a) (Expr.Keeps twinned) := by
  have signed {f : Expr → Reader Expr} (steady : IsSteady (ahead r).token)
      (h : ∀ e s, e.Keeps twinned → Within .ended g s → Yields g s (f e) (Expr.Keeps twinned)) :
      Yields g r (do
        let _ ← Reader.take
        f (← operand fuel (← a.deeper))) (Expr.Keeps twinned) :=
    (Yields.take here steady).bind fun _ _ _ here => (Yields.deeper here).bind
      fun _ _ _ here => (ih.operand here).bind h
  rw [operand]
  refine Leaves.peek_bind ?_
  split
  · rename_i token
    refine signed (by rw [token]; decide) fun e s keeps here => ?_
    split
    · split <;> exact .pure trivial here
    · exact .pure trivial here
    · exact .pure ⟨keeps, trivial⟩ here
  · rename_i token
    refine signed (by rw [token]; decide) fun e s keeps here => ?_
    split
    · exact .pure trivial here
    · exact .pure trivial here
    · exact .pure ⟨keeps, trivial⟩ here
  · rename_i token
    exact signed (by rw [token]; decide) fun e s keeps here => .pure ⟨keeps, trivial⟩ here
  · exact .of_fails fails_fail
  · exact ih.primary here

/-! ## Chains -/

theorem forks_steps {root : Expr} {opened : Bool} (here : Within .ended g r)
    (keeps : root.Keeps twinned) :
    Yields g r (steps (fuel + 1) a root opened) (Expr.Keeps twinned) := by
  rw [steps]
  refine Leaves.peek_bind ?_
  split
  case h_1 token => exact ih.indexStep here (by rw [token]; decide) keeps
  case h_2 token => exact ih.indexStep here (by rw [token]; decide) keeps
  case h_3 token => exact ih.memberStep here (by rw [token]; decide) keeps
  case h_4 token => exact ih.memberStep here (by rw [token]; decide) keeps
  case h_5 => exact Yields.pure keeps here

theorem forks_indexStep {root : Expr} {opened optional : Bool} (here : Within .ended g r)
    (steady : IsSteady (ahead r).token) (keeps : root.Keeps twinned) :
    Yields g r (indexStep (fuel + 1) a root opened optional) (Expr.Keeps twinned) := by
  rw [indexStep]
  refine (Yields.take here steady).bind fun p s _ here => ?_
  refine (Yields.deeper here).bind fun b s _ here => ?_
  refine (ih.expression here).bind fun index s keeps' here => ?_
  dsimp only
  split
  · exact .of_fails fails_fail.bind
  · split
    · exact .of_fails fails_fail.bind
    · exact (Yields.expect here (by decide)).bind fun _ _ _ here =>
        ih.steps here (addStep_keeps keeps keeps')

theorem forks_memberStep {root : Expr} {opened optional : Bool} (here : Within .ended g r)
    (steady : IsSteady (ahead r).token) (keeps : root.Keeps twinned) :
    Yields g r (memberStep (fuel + 1) a root opened optional) (Expr.Keeps twinned) := by
  rw [memberStep]
  refine (Yields.take here steady).bind fun _ s _ here => ?_
  refine Yields.take_bind here (fun n unsteady => ?_) fun n s _ here => ?_
  · rcases unsteady_cases unsteady with token | token | token | token <;>
    · simp only [token]
      exact fails_refuse
  dsimp only
  split
  · split
    · exact .of_fails fails_fail
    · exact .of_fails fails_refuse
  · refine Leaves.peek_bind ?_
    split
    · rename_i token
      refine (Yields.take here (by rw [token]; decide)).bind fun _ s _ here => ?_
      refine (Yields.deeper here).bind fun b s _ here => ?_
      have none : exprsKeep twinned [] := trivial
      exact (ih.arguments here none).bind fun _ _ keeps' here =>
        ih.steps here (addStep_keeps keeps keeps')
    · rename_i token
      exact (Yields.take here (by rw [token]; decide)).bind fun _ _ _ here =>
        ih.steps here (addStep_keeps keeps trivial)
    · split
      · exact .of_fails fails_fail.bind
      · exact ih.steps here (addStep_keeps keeps trivial)

/-! ## Rows of expressions -/

theorem forks_arguments {function : String} {acc : List Expr} (here : Within .ended g r)
    (keeps : exprsKeep twinned acc) :
    Yields g r (arguments (fuel + 1) a function acc) (exprsKeep twinned) := by
  rw [arguments]
  refine (Yields.accept here (by decide)).bind fun closed s _ here => ?_
  split
  · exact .pure (exprsKeep_reverse keeps) here
  · refine Leaves.peek_bind ?_
    dsimp only
    split
    · exact .of_fails fails_fail.bind
    · refine (ih.expression here).bind fun e s own here => ?_
      have keeps' : exprsKeep twinned (e :: acc) := ⟨own, keeps⟩
      refine Yields.take_bind here (fun q unsteady => ?_) fun q s _ here => ?_
      · rw [if_neg (ne_of_unsteady unsteady (by decide)), if_neg (ne_of_unsteady unsteady (by decide)),
          if_neg (ne_of_unsteady unsteady (by decide))]
        exact fails_refuse
      · split
        · exact .pure (exprsKeep_reverse keeps') here
        · split
          · exact ih.arguments here keeps'
          · split
            · exact .of_fails fails_fail
            · exact .of_fails fails_refuse

theorem forks_items {acc : List Expr} (here : Within .ended g r) (keeps : exprsKeep twinned acc) :
    Yields g r (items (fuel + 1) a acc) (exprsKeep twinned) := by
  rw [items]
  refine (Yields.accept here (by decide)).bind fun closed s _ here => ?_
  split
  · exact .pure (exprsKeep_reverse keeps) here
  · refine Leaves.peek_bind ?_
    split
    · exact .of_fails fails_fail
    · refine Yields.bind (ih.expression here) fun e s own here => ?_
      have keeps' : exprsKeep twinned (e :: acc) := ⟨own, keeps⟩
      refine Yields.take_bind here (fun q unsteady => ?_) fun q s _ here => ?_
      · rw [if_neg (ne_of_unsteady unsteady (by decide)), if_neg (ne_of_unsteady unsteady (by decide)),
          if_neg (ne_of_unsteady unsteady (by decide))]
        exact fails_refuse
      · split
        · exact .pure (exprsKeep_reverse keeps') here
        · split
          · exact ih.items here keeps'
          · split
            · exact .of_fails fails_fail
            · exact .of_fails fails_refuse

theorem forks_fieldBehind {acc : List Field} {p : Pos} {name : String} (here : Within .ended g' r)
    (inner : g'.Inner g) (keeps : fieldsKeep twinned acc) :
    Yields g r (fieldBehind fuel a acc p name) (fieldsKeep twinned) := by
  unfold fieldBehind
  dsimp only
  split
  · exact .of_fails fails_fail.bind
  · refine Leaves.bind (Yields.expect here (by decide)) fun _ s ⟨_, here⟩ => ?_
    refine Leaves.bind (ih.expression here) fun e s ⟨own, here⟩ => ?_
    have keeps' : fieldsKeep twinned (.mk name e :: acc) := ⟨own, keeps⟩
    refine Leaves.bind (P := fun q u => (q.token = .sign "\x7d" → Within .ended g u) ∧
      (IsSteady q.token → Within .ended g' u)) ?_ fun q s ⟨closed, goes_on⟩ => ?_
    · intro q u eq
      obtain ⟨-, closed⟩ := here.take_closing inner q u eq
      exact ⟨fun closing => (closed closing).1, (here.take_steady q u eq).2⟩
    split
    · rename_i closing
      exact Yields.pure (fieldsKeep_reverse keeps') (closed closing)
    · split
      · rename_i comma
        exact ih.fields (goes_on (by rw [comma]; decide)) inner keeps'
      · split
        · exact .of_fails fails_refuse
        · exact .of_fails fails_refuse

theorem forks_fields {acc : List Field} (here : Within .ended g' r) (inner : g'.Inner g)
    (keeps : fieldsKeep twinned acc) :
    Yields g r (fields (fuel + 1) a acc) (fieldsKeep twinned) := by
  rw [fields]
  refine (here.accept_closing inner).bind fun found s closed => ?_
  rcases closed with ⟨rfl, here, -⟩ | ⟨rfl, rfl⟩
  · exact Yields.pure (fieldsKeep_reverse keeps) here
  · rw [if_neg Bool.false_ne_true]
    refine here.take_steady.bind ?_
    rintro n s ⟨_, left⟩
    dsimp only
    split
    · rename_i name
      exact forks_fieldBehind ih (left (by simp [name, IsSteady])) inner keeps
    · rename_i text
      exact forks_fieldBehind ih (left (by simp [text, IsSteady])) inner keeps
    · exact .of_fails fails_fail.bind
    · exact .of_fails fails_fail.bind
    · exact .of_fails fails_refuse.bind

theorem forks_pieces {acc : List Expr} (here : Within .ended g r) (keeps : exprsKeep twinned acc) :
    Yields g r (pieces (fuel + 1) a acc) (exprsKeep twinned) := by
  rw [pieces]
  refine (ih.reads_block here).bind fun b s own here => ?_
  have longer : exprsKeep twinned (acc ++ [.statement b]) := exprsKeep_concat keeps own
  refine Yields.take_bind here (fun q unsteady => ?_) fun q s _ here => ?_
  · split
    · rename_i text
      exact absurd (by simp [text, IsSteady]) unsteady
    · rename_i text
      exact absurd (by simp [text, IsSteady]) unsteady
    · exact fails_refuse
  · split
    · split
      · exact .pure longer here
      · exact .pure (exprsKeep_concat longer trivial) here
    · refine ih.pieces here ?_
      split
      · exact longer
      · exact exprsKeep_concat longer trivial
    · exact .of_fails fails_refuse

/-! ## Operands -/

omit ih in
theorem yields_mentions {names : List (String × Pos)} (here : Within .ended g r) :
    Yields g r (forIn names PUnit.unit fun name _ => do
      Reader.mention name.1 name.2
      return ForInStep.yield PUnit.unit) fun _ => True := by
  induction names generalizing r with
  | nil => exact .pure trivial here
  | cons name more more_ih =>
    rw [List.forIn_cons]
    refine Yields.bind (P := fun step => step = ForInStep.yield PUnit.unit) ?_ ?_
    · exact (Yields.mention here).bind fun _ _ _ here => .pure rfl here
    · rintro _ s rfl here
      exact more_ih here

theorem forks_closure {params : List String} {p : Pos} (here : Within .ended g r) :
    Yields g r (closure (fuel + 1) a params p) (Expr.Keeps twinned) := by
  rw [closure]
  refine Leaves.get_bind (Leaves.set_bind ?_)
  refine Leaves.bind (ih.statement (here.aside rfl rfl)) ?_
  rintro body s ⟨keeps, here⟩
  refine Leaves.get_bind (Leaves.set_bind ?_)
  have defined {f : Function} {outer : Reading} (body : f.body.Keeps twinned) : Within .ended g
      { s with vars := outer.vars, free := outer.free, functions := f :: s.functions } :=
    (here.define body).aside rfl rfl
  exact Leaves.bind (yields_mentions (defined keeps)) fun _ _ behind => Yields.pure trivial behind.2

/-- What a name or a word is followed by makes it a call, or is left to `otherwise`. -/
theorem forks_called {n : String} {p : Pos} {otherwise : Reader Expr} (here : Within .ended g r)
    (free : n ≠ "eval") (h : Yields g r otherwise (Expr.Keeps twinned)) :
    Yields g r (do
      match (← Reader.peek).token with
      | .sign "(" => do
        let _ ← Reader.take
        let args ← arguments fuel (← a.deeper).inner n []
        steps fuel a (.call n args p) false
      | .sign "()" => do
        let _ ← Reader.take
        steps fuel a (.call n [] p) false
      | _ => otherwise) (Expr.Keeps twinned) := by
  have none : exprsKeep twinned [] := trivial
  refine Leaves.peek_bind ?_
  split
  · rename_i token
    refine (Yields.take here (by rw [token]; decide)).bind fun _ s _ here => ?_
    refine (Yields.deeper here).bind fun b s _ here => ?_
    exact (ih.arguments here none).bind fun _ _ keeps here => ih.steps here ⟨free, keeps⟩
  · rename_i token
    exact (Yields.take here (by rw [token]; decide)).bind fun _ _ _ here =>
      ih.steps here ⟨free, none⟩
  · exact h

theorem forks_primary (here : Within .ended g r) :
    Yields g r (primary (fuel + 1) a) (Expr.Keeps twinned) := by
  have nested {m : Around → Reader Stmt} (h : ∀ b, Yields g r (m b) (Stmt.Keeps twinned)) :
      Yields g r (do
        let s ← m (← a.inner.deeper)
        steps fuel a (.statement s) false) (Expr.Keeps twinned) := by
    refine Leaves.deeper.bind fun b _ same => ?_
    rw [same]
    exact (h b).bind fun _ _ keeps here => ih.steps here keeps
  rw [primary]
  refine Leaves.peek_bind ?_
  split
  · rename_i v constant
    have steady : IsSteady (ahead r).token :=
      isSteady_of (P := fun t => (constant? t).isSome) (by rw [constant]; rfl) (by decide)
    exact (Yields.take here steady).bind fun _ _ _ here => ih.steps here trivial
  · split
    case h_1 =>
      refine Leaves.deeper.bind fun b _ same => ?_
      rw [same]
      exact (ih.reads_block here).bind fun _ _ keeps here => ih.steps here keeps
    case h_2 token =>
      refine (Yields.take here (by rw [token]; decide)).bind fun _ s _ here => ?_
      refine (Yields.deeper here).bind fun b s _ here => ?_
      refine (Yields.deeper here).bind fun c s _ here => ?_
      refine (ih.expression here).bind fun e s keeps here => ?_
      exact (Yields.expect here (by decide)).bind fun _ _ _ here => ih.steps here keeps
    case h_3 token => exact nested fun _ => ih.branch here token
    case h_4 token => exact nested fun _ => ih.selection here (by rw [token]; decide)
    case h_5 token => exact nested fun _ => ih.whileLoop here (by rw [token]; decide)
    case h_6 token => exact nested fun _ => ih.endless here (by rw [token]; decide)
    case h_7 token => exact nested fun _ => ih.doLoop here (by rw [token]; decide)
    case h_8 token => exact nested fun _ => ih.forLoop here (by rw [token]; decide)
    case h_9 token =>
      dsimp only
      split
      · exact .of_fails fails_fail.bind
      · refine (Yields.take here (by rw [token]; decide)).bind fun _ s _ here => ?_
        refine (ih.parameters here (by decide)).bind fun params s _ here => ?_
        exact (ih.closure here).bind fun _ _ keeps here => ih.steps here keeps
    case h_10 token =>
      exact (Yields.take here (by rw [token]; decide)).bind fun _ _ _ here =>
        (ih.closure here).bind fun _ _ keeps here => ih.steps here keeps
    case h_11 text token =>
      refine (Yields.take here (by simp [token, IsSteady])).bind fun _ s _ here => ?_
      refine (Yields.deeper here).bind fun b s _ here => ?_
      have first : exprsKeep twinned
          (if text = "" then [] else [.const (.string text) (ahead r).pos]) := by
        split
        · trivial
        · exact ⟨trivial, trivial⟩
      refine (ih.pieces here first).bind fun parts s keeps here => ih.steps here ?_
      split
      · trivial
      · exact keeps
    case h_12 token =>
      have none : exprsKeep twinned [] := trivial
      refine (Yields.take here (by rw [token]; decide)).bind fun _ s _ here => ?_
      refine (Yields.deeper here).bind fun b s _ here => ?_
      exact (ih.items here none).bind fun _ _ keeps here => ih.steps here keeps
    case h_13 token =>
      have none : fieldsKeep twinned [] := trivial
      refine Leaves.bind (P := fun _ s => ∃ g', g'.Inner g ∧ Within .ended g' s) ?_ ?_
      · intro p s eq
        obtain ⟨ahead, -⟩ := here.take p s eq
        obtain ⟨-, -, g', inner, here, -⟩ := here.take_opening p s eq (.inr (ahead ▸ token))
        exact ⟨g', inner, here⟩
      · rintro _ s ⟨g', inner, here⟩
        refine Leaves.bind (Yields.deeper here) ?_
        rintro b s ⟨_, here⟩
        exact (ih.fields here inner none).bind fun _ _ keeps here => ih.steps here keeps
    case h_14 n token =>
      obtain ⟨evaluates, mode⟩ := here.ahead_named
      rw [token] at evaluates mode
      have free : n ≠ "eval" := fun same => evaluates (same ▸ rfl)
      have other : n ≠ modeName := fun same => absurd (mode (same ▸ rfl)) (by decide)
      refine (Yields.take here (by simp [token, IsSteady])).bind fun _ s _ here => ?_
      exact forks_called ih here free <| (Yields.mention here).bind fun _ _ _ here =>
        ih.steps here other
    case h_15 w token =>
      have evaluates := here.ahead_named.1
      rw [token] at evaluates
      refine (Yields.take here (by simp [token, IsSteady])).bind fun _ s _ here => ?_
      split
      · split
        · exact ih.steps here trivial
        · exact .of_fails fails_fail
      · split
        · exact forks_called ih here (fun same => evaluates (same ▸ rfl)) (.of_fails fails_fail)
        · exact .of_fails fails_fail
    case h_16 => exact .of_fails fails_fail
    case h_17 => exact .of_fails fails_refuse

omit ih in
/-- Whatever fuel they have, the readers of a row with forks keep the rule. -/
theorem forking (fuel : Nat) : Forking fuel := by
  induction fuel with
  | zero => constructor <;> intros <;> exact Leaves.of_fails fails_tooDeep
  | succ fuel ih =>
    exact {
      statement := forks_statement ih
      result := forks_result ih
      statements := forks_statements ih
      block := forks_block ih
      declaration := forks_declaration ih
      branch := forks_branch ih
      condition := forks_condition ih
      whileLoop := forks_whileLoop ih
      endless := forks_endless ih
      doLoop := forks_doLoop ih
      forLoop := forks_forLoop ih
      attempt := forks_attempt ih
      selection := forks_selection ih
      cases := forks_cases ih
      patternList := forks_patternList ih
      definition := forks_definition ih
      parameters := forks_parameters ih
      expression := forks_expression ih
      operation := forks_operation ih
      operand := forks_operand ih
      primary := forks_primary ih
      steps := forks_steps ih
      indexStep := forks_indexStep ih
      memberStep := forks_memberStep ih
      arguments := forks_arguments ih
      items := forks_items ih
      fields := forks_fields ih
      pieces := forks_pieces ih
      closure := forks_closure ih }

end Parser

end Stencil.Script
