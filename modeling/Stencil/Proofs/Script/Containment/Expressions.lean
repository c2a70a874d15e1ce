import Stencil.Proofs.Script.Containment.Statements

/-!
# Expressions inside a script

The readers of expressions, and with them all readers that an expression reaches: what is accepted
alone is accepted in front of a closing parenthesis, with the same tree but for the places, up to
the parenthesis.
-/

namespace Stencil.Script

open Lexer (isBrace)

namespace Parser

section

variable {c : Passage} {extra fuel : Nat} {a a' : Around} {w : Ahead} {depths : List Nat}

/-! ## Closures -/

theorem follows_parameters (ih : Following c extra fuel) (acc : List String)
    (here : Stands w depths) :
    Follows c (parameters (fuel + 1) (.sign "|") acc)
      (parameters (extra + fuel + 1) (.sign "|") acc) w
      (fun w' names names' => Kept depths Eq w' names names' ∧ w'.tokens ≠ []) := by
  have opens : Token.sign "|" ∈ openers := by simp [openers]
  rw [parameters, parameters]
  refine Follows.bind (Follows.accept (by simp) (by simp)) ?_
  rintro w₁ _ found ⟨rfl, ⟨rfl, took⟩ | ⟨rfl, rfl, -⟩⟩
  · exact Follows.pure ⟨⟨here.took took rfl, rfl⟩, took.filled opens⟩
  · refine Follows.bind Follows.variableName ?_
    rintro w₂ ⟨name, p⟩ ⟨_, p'⟩ ⟨rfl, n, took⟩
    have here := here.took took rfl
    dsimp only
    by_cases twice : acc.contains name = true
    · simp only [twice, if_true]
      exact .of_fails fails_fail.bind
    · simp only [twice]
      refine Follows.take_bind (fun t w₃ q q' took hq hq' => ?_) fun q hq => ?_
      · simp only [hq, hq']
        split
        · rename_i closing
          subst closing
          exact Follows.pure ⟨⟨here.took took rfl, rfl⟩, took.filled opens⟩
        · split
          · rename_i comma
            exact ih.parameters (name :: acc) (here.took took (by rw [comma]; rfl))
          · exact .of_fails fails_refuse
      · simp only [hq, reduceCtorEq, if_false]
        exact fails_refuse

theorem harmless_mentions (captured : List (String × Pos)) :
    Follows.Harmless (forIn captured PUnit.unit fun x _ =>
      match x with
      | (n, q) => do
        Reader.mention n q
        return ForInStep.yield PUnit.unit) := by
  induction captured with
  | nil => exact fun r => ⟨r.free, rfl⟩
  | cons first rest ih =>
    obtain ⟨n, q⟩ := first
    intro r
    obtain ⟨free, run⟩ := @Follows.harmless_mention n q r
    obtain ⟨free', run'⟩ := ih { r with free }
    refine ⟨free', ?_⟩
    rw [List.forIn_cons, bind_assoc]
    exact (bind_of_ok run).trans run'

theorem follows_closure (ih : Following c extra fuel) {p p' : Pos} (params : List String)
    (here : Stands w depths) (filled : w.tokens ≠ []) :
    Follows c (closure (fuel + 1) a params p) (closure (extra + fuel + 1) a' params p') w
      (Kept depths SameExpr) := by
  rw [closure, closure]
  refine Follows.get_bind fun outer outer' alike => ?_
  have entered : Alike c w { outer with vars := params.reverse.map (·, false), free := [] }
      { outer' with vars := params.reverse.map (·, false), free := [] } :=
    ⟨alike.alone, alike.inside, alike.read, fun _ h => h, alike.functions, alike.defined⟩
  refine Follows.set_bind entered ?_
  refine Follows.bind (ih.statement (.refl rfl) here filled) ?_
  rintro w₁ body body' ⟨here, -⟩
  refine Follows.get_bind fun inner inner' within => ?_
  refine Follows.set_bind (within.enclosing alike (isClosureName_closureName _)) ?_
  refine Follows.bind (Follows.of_harmless (harmless_mentions _) (harmless_mentions _)) ?_
  rintro _ _ _ rfl
  exact Follows.pure ⟨here, rfl⟩

/-! ## Expressions -/

theorem follows_expression (ih : Following c extra fuel) (around : Roomier a a')
    (here : Stands w depths) :
    Follows c (expression (fuel + 1) a) (expression (extra + fuel + 1) a')
      w (Kept depths SameExpr) := by
  rw [expression, expression]
  refine Follows.bind (ih.operand around here) ?_
  rintro w₁ left left' ⟨here, same⟩
  exact ih.operation around here Nat.one_pos same

theorem isBrace_of_precedence_pos {t : Token} (h : 0 < precedence t) : isBrace t = false :=
  Lexer.isBrace_eq_false_of (P := fun t => 0 < precedence t) h (by decide) fun _ => Nat.lt_irrefl 0

/-- How tightly an operator binds; in a pattern the sign between alternatives is none. -/
def strength (inPattern : Bool) (t : Token) : Nat :=
  if inPattern && t = .sign "|" then 0 else precedence t

theorem strength_le (inPattern : Bool) (t : Token) : strength inPattern t ≤ precedence t := by
  unfold strength
  split
  · exact Nat.zero_le _
  · exact Nat.le_refl _

/-- No operator stands ahead at the end of the text, nor at the parenthesis. -/
theorem follows_strength :
    Follows c Reader.peek Reader.peek w (fun w' p p' => w' = w ∧
      (∀ inPattern, strength inPattern p.token = strength inPattern p'.token) ∧
      (0 < precedence p.token → p.token = p'.token ∧ ∃ ts, w.tokens = p.token :: ts)) := by
  cases hw : w.tokens with
  | nil =>
    refine (Follows.peek_nil hw).mono ?_
    rintro w' p p' ⟨rfl, hp, hp'⟩
    rw [hp, hp']
    exact ⟨rfl, fun inPattern => by simp [strength, precedence], by simp [precedence]⟩
  | cons t ts =>
    refine (Follows.peek_cons hw).mono ?_
    rintro w' p p' ⟨rfl, hp, hp'⟩
    rw [hp, hp']
    exact ⟨rfl, fun _ => rfl, fun _ => ⟨rfl, ts, rfl⟩⟩

theorem operation_succ (fuel : Nat) (a : Around) (least : Nat) (left : Expr) :
    operation (fuel + 1) a least left = (do
      let op ← Reader.peek
      let force := strength a.inPattern op.token
      if force < least || (force = least && !groupsRight op.token) then return left
      else
        let _ ← Reader.take
        let right ← operand fuel a
        let next ← Reader.peek
        let following := strength a.inPattern next.token
        let right ←
          if (force = following && groupsRight op.token) || force < following then
            operation fuel a force right
          else pure right
        let a ← a.deeper
        operation fuel a least (← combine op.token left right op.pos)) := by
  rw [operation]
  rfl

theorem follows_operation (ih : Following c extra fuel) {least : Nat} {left left' : Expr}
    (around : Roomier a a') (here : Stands w depths) (positive : 0 < least)
    (same : SameExpr left left') :
    Follows c (operation (fuel + 1) a least left) (operation (extra + fuel + 1) a' least left') w
      (Kept depths SameExpr) := by
  rw [operation_succ, operation_succ]
  refine Follows.bind follows_strength ?_
  rintro w₁ op op' ⟨rfl, strengths, tokens⟩
  dsimp only
  rw [around.inPattern, ← strengths a.inPattern]
  generalize hs : strength a.inPattern op.token = force
  by_cases weak : force < least
  · simp only [weak, decide_true, Bool.true_or, if_true]
    exact Follows.pure ⟨here, same⟩
  · have binds : 0 < precedence op.token := by
      have bound := strength_le a.inPattern op.token
      omega
    obtain ⟨op_eq, ts, hw⟩ := tokens binds
    rw [← op_eq]
    split
    · exact Follows.pure ⟨here, same⟩
    · refine Follows.bind (Follows.take_cons hw) ?_
      rintro w₂ _ _ ⟨took, -, -⟩
      have here := here.took took (isBrace_of_precedence_pos binds)
      refine Follows.bind (ih.operand around here) ?_
      rintro w₃ right right' ⟨here, same_right⟩
      refine Follows.bind follows_strength ?_
      rintro w₄ next next' ⟨rfl, following, -⟩
      rw [← following a.inPattern]
      have combined {w : Ahead} {right right' : Expr} (here : Stands w depths)
          (same_right : SameExpr right right') :
          Follows c (do
              let a ← a.deeper
              operation fuel a least (← combine op.token left right op.pos))
            (do
              let a ← a'.deeper
              operation (extra + fuel) a least (← combine op.token left' right' op'.pos)) w
            (Kept depths SameExpr) := by
        refine Follows.bind (Follows.deeper around) ?_
        rintro _ b b' ⟨rfl, deeper⟩
        refine Follows.bind (follows_combine here same same_right) ?_
        rintro w₅ e e' ⟨here, same⟩
        exact ih.operation deeper here positive same
      split
      · refine Follows.bind (ih.operation around here (by omega) same_right) ?_
        rintro w₅ right right' ⟨here, same_right⟩
        exact combined here same_right
      · exact combined here same_right

/-- The expression that a minus makes of an operand. -/
def negated (e : Expr) (p : Pos) : Expr :=
  match e with
  | .const (.int i) _ =>
    if i = minInt then .const (.float (-(Float.ofInt i))) p else .const (.int (-i)) p
  | .const (.float x) _ => .const (.float (-x)) p
  | e => .operator "-" [e] p

theorem unplaced_negated (e : Expr) (p : Pos) :
    (negated e p).unplaced = negated e.unplaced Pos.start := by
  cases e with
  | const v q =>
    cases v with
    | int i =>
      unfold negated
      simp only [Expr.unplaced]
      split <;> rfl
    | _ => rfl
  | _ => rfl

/-- The expression that a plus makes of an operand. -/
def affirmed (e : Expr) (p : Pos) : Expr :=
  match e with
  | .const (.int i) q => .const (.int i) q
  | .const (.float x) q => .const (.float x) q
  | e => .operator "+" [e] p

theorem unplaced_affirmed (e : Expr) (p : Pos) :
    (affirmed e p).unplaced = affirmed e.unplaced Pos.start := by
  cases e with
  | const v q => cases v <;> rfl
  | _ => rfl

theorem follows_operand (ih : Following c extra fuel) (around : Roomier a a')
    (here : Stands w depths) :
    Follows c (operand (fuel + 1) a) (operand (extra + fuel + 1) a') w (Kept depths SameExpr) := by
  rw [operand, operand]
  cases hw : w.tokens with
  | nil =>
    refine Follows.bind (Follows.peek_nil hw) ?_
    rintro _ p p' ⟨rfl, hp, -⟩
    simp only [hp]
    exact .of_fails fails_fail
  | cons t ts =>
    refine Follows.bind (Follows.peek_cons hw) ?_
    rintro w₁ p p' ⟨rfl, hp, hp'⟩
    -- A sign is taken, and an operand behind it is read.
    have signed (f f' : Expr → Reader Expr) (plain : isBrace t = false)
        (h : ∀ w e e', Stands w depths → SameExpr e e' →
          Follows c (f e) (f' e') w (Kept depths SameExpr)) :
        Follows c (do
            let _ ← Reader.take
            f (← operand fuel (← a.deeper)))
          (do
            let _ ← Reader.take
            f' (← operand (extra + fuel) (← a'.deeper))) w₁ (Kept depths SameExpr) := by
      refine Follows.bind (Follows.take_cons hw) ?_
      rintro w₂ _ _ ⟨took, -, -⟩
      refine Follows.bind (Follows.deeper around) ?_
      rintro _ b b' ⟨rfl, deeper⟩
      refine Follows.bind (ih.operand deeper (here.took took plain)) ?_
      rintro w₃ e e' ⟨here, same⟩
      exact h w₃ e e' here same
    simp only [hp, hp']
    split
    · refine signed _ _ rfl fun w e e' here same => ?_
      have made (e : Expr) (p : Pos) : (match e with
          | .const (.int i) _ =>
            if i = minInt then Pure.pure (.const (.float (-(Float.ofInt i))) p)
            else Pure.pure (.const (.int (-i)) p)
          | .const (.float x) _ => Pure.pure (.const (.float (-x)) p)
          | e => Pure.pure (.operator "-" [e] p) : Reader Expr) = Pure.pure (negated e p) := by
        unfold negated
        split
        · split <;> rfl
        · rfl
        · rfl
      have negated : Follows c (Pure.pure (negated e p.pos)) (Pure.pure (negated e' p'.pos)) w
          (Kept depths SameExpr) :=
        Follows.pure ⟨here, by rw [SameExpr, unplaced_negated, unplaced_negated, same]⟩
      rw [← made, ← made] at negated
      exact negated
    · refine signed _ _ rfl fun w e e' here same => ?_
      have made (e : Expr) (p : Pos) : (match e with
          | .const (.int i) q => Pure.pure (.const (.int i) q)
          | .const (.float x) q => Pure.pure (.const (.float x) q)
          | e => Pure.pure (.operator "+" [e] p) : Reader Expr) = Pure.pure (affirmed e p) := by
        unfold affirmed
        split <;> rfl
      have affirmed : Follows c (Pure.pure (affirmed e p.pos)) (Pure.pure (affirmed e' p'.pos)) w
          (Kept depths SameExpr) :=
        Follows.pure ⟨here, by rw [SameExpr, unplaced_affirmed, unplaced_affirmed, same]⟩
      rw [← made, ← made] at affirmed
      exact affirmed
    · exact signed (fun e => Pure.pure (.operator "!" [e] p.pos))
        (fun e => Pure.pure (.operator "!" [e] p'.pos)) rfl fun w e e' here same =>
          Follows.pure ⟨here, by
            rw [SameExpr, Expr.unplaced, Expr.unplaced, SameExprs.cons same rfl]⟩
    · exact .of_fails fails_fail
    · exact ih.primary around here

/-- A name with arguments behind it, or without. -/
theorem follows_called (ih : Following c extra fuel) (name : String) {m m' : Reader Expr}
    (around : Roomier a a') (here : Stands w depths) (f f' : List Expr → Reader Expr)
    (called : ∀ w args args', Stands w depths → SameExprs args args' →
      Follows c (f args) (f' args') w (Kept depths SameExpr))
    (other : Follows c m m' w (Kept depths SameExpr)) :
    Follows c (do
        match (← Reader.peek).token with
        | .sign "(" => do
          let _ ← Reader.take
          f (← arguments fuel (← a.deeper).inner name [])
        | .sign "()" => do
          let _ ← Reader.take
          f []
        | _ => m)
      (do
        match (← Reader.peek).token with
        | .sign "(" => do
          let _ ← Reader.take
          f' (← arguments (extra + fuel) (← a'.deeper).inner name [])
        | .sign "()" => do
          let _ ← Reader.take
          f' []
        | _ => m') w (Kept depths SameExpr) := by
  cases hw : w.tokens with
  | nil =>
    refine Follows.bind (Follows.peek_nil hw) ?_
    rintro w₁ p p' ⟨rfl, hp, hp'⟩
    simp only [hp, hp']
    exact other
  | cons t ts =>
    refine Follows.bind (Follows.peek_cons hw) ?_
    rintro w₁ p p' ⟨rfl, hp, hp'⟩
    simp only [hp, hp']
    split
    · refine Follows.bind (Follows.take_cons hw) ?_
      rintro w₂ _ _ ⟨took, -, -⟩
      refine Follows.bind (Follows.deeper around) ?_
      rintro _ b b' ⟨rfl, deeper⟩
      refine Follows.bind (ih.arguments name deeper.inner (here.took took rfl) rfl) ?_
      rintro w₃ args args' ⟨here, same⟩
      exact called w₃ args args' here same
    · refine Follows.bind (Follows.take_cons hw) ?_
      rintro w₂ _ _ ⟨took, -, -⟩
      exact called w₂ [] [] (here.took took rfl) rfl
    · exact other

theorem isBrace_of_constant? {t : Token} {v : Value} (h : constant? t = some v) :
    isBrace t = false :=
  Lexer.isBrace_eq_false_of (P := fun t => (constant? t).isSome) (by rw [h]; rfl) (by decide)
    fun _ => Bool.false_ne_true

theorem follows_primary (ih : Following c extra fuel) (around : Roomier a a')
    (here : Stands w depths) :
    Follows c (primary (fuel + 1) a) (primary (extra + fuel + 1) a') w (Kept depths SameExpr) := by
  cases hw : w.tokens with
  | nil =>
    refine Follows.bind (Follows.peek_nil hw) ?_
    rintro _ p p' ⟨rfl, hp, -⟩
    simp only [hp, constant?]
    exact .of_fails fails_fail
  | cons t ts =>
    refine Follows.bind (Follows.peek_cons hw) ?_
    rintro w₁ p p' ⟨rfl, hp, hp'⟩
    have nested {f f' : Around → Reader Stmt} {b b' : Around} (roomier : Roomier b b')
        (h : ∀ b b', Roomier b b' → Follows c (f b) (f' b') w₁ (Kept depths SameStmt)) :
        Follows c (do
            let s ← f (← b.deeper)
            steps fuel a (.statement s) false)
          (do
            let s ← f' (← b'.deeper)
            steps (extra + fuel) a' (.statement s) false) w₁ (Kept depths SameExpr) := by
      refine Follows.bind (Follows.deeper roomier) ?_
      rintro _ b b' ⟨rfl, deeper⟩
      refine Follows.bind (h b b' deeper) ?_
      rintro w₂ s s' ⟨here, same⟩
      exact ih.steps false around here (by rw [SameExpr, Expr.unplaced, Expr.unplaced, same])
    simp only [hp, hp', around.inPattern, around.inFunction]
    cases constant : constant? t with
    | some v =>
      refine Follows.bind (Follows.take_cons hw) ?_
      rintro w₂ _ _ ⟨took, -, -⟩
      exact ih.steps false around (here.took took (isBrace_of_constant? constant)) rfl
    | none =>
    dsimp only
    split
    case h_1 => exact nested around fun b b' deeper => ih.block deeper here.opens
    case h_2 =>
      refine Follows.bind (Follows.take_cons hw) ?_
      rintro w₂ _ _ ⟨took, -, -⟩
      refine Follows.bind (Follows.deeper around) ?_
      rintro _ b b' ⟨rfl, deeper⟩
      refine Follows.bind (Follows.deeper deeper) ?_
      rintro _ b b' ⟨rfl, deeper⟩
      refine Follows.bind (ih.expression deeper (here.took took rfl)) ?_
      rintro w₃ e e' ⟨here, same⟩
      refine Follows.bind (Follows.expect (by simp)) ?_
      rintro w₄ _ _ took
      exact ih.steps false around (here.took took rfl) same
    case h_3 => exact nested around.inner fun b b' deeper => ih.branch deeper here hw
    case h_4 => exact nested around.inner fun b b' deeper => ih.selection deeper here hw
    case h_5 => exact nested around.inner fun b b' deeper => ih.whileLoop deeper here hw
    case h_6 => exact nested around.inner fun b b' deeper => ih.endless deeper here hw
    case h_7 => exact nested around.inner fun b b' deeper => ih.doLoop deeper here hw
    case h_8 => exact nested around.inner fun b b' deeper => ih.forLoop deeper here hw
    case h_9 =>
      by_cases pattern : a.inPattern = true
      · rw [if_pos pattern]
        exact .of_fails fails_fail.bind
      · rw [if_neg pattern, if_neg pattern]
        refine Follows.bind (Follows.take_cons hw) ?_
        rintro w₂ _ _ ⟨took, -, -⟩
        refine Follows.bind (ih.parameters [] (here.took took rfl)) ?_
        rintro w₃ params _ ⟨⟨here, rfl⟩, filled⟩
        refine Follows.bind (ih.closure params here filled) ?_
        rintro w₄ e e' ⟨here, same⟩
        exact ih.steps false around here same
    case h_10 =>
      refine Follows.bind (Follows.take_cons hw) ?_
      rintro w₂ _ _ ⟨took, -, -⟩
      have filled := took.filled (by simp [openers])
      refine Follows.bind (ih.closure [] (here.took took rfl) filled) ?_
      rintro w₃ e e' ⟨here, same⟩
      exact ih.steps false around here same
    case h_11 text =>
      refine Follows.bind (Follows.take_cons hw) ?_
      rintro w₂ _ _ ⟨took, -, -⟩
      refine Follows.bind (Follows.deeper around) ?_
      rintro _ b b' ⟨rfl, deeper⟩
      have first : SameExprs (if text = "" then [] else [.const (.string text) p.pos])
          (if text = "" then [] else [.const (.string text) p'.pos]) := by
        split <;> rfl
      refine Follows.bind (ih.pieces deeper (here.piece took) first) ?_
      rintro w₃ parts parts' ⟨here, same⟩
      refine ih.steps false around here ?_
      rw [← same.isEmpty]
      split
      · rfl
      · rw [SameExpr, Expr.unplaced, Expr.unplaced, same]
    case h_12 =>
      refine Follows.bind (Follows.take_cons hw) ?_
      rintro w₂ _ _ ⟨took, -, -⟩
      refine Follows.bind (Follows.deeper around) ?_
      rintro _ b b' ⟨rfl, deeper⟩
      refine Follows.bind (ih.items deeper.inner (here.took took rfl) rfl) ?_
      rintro w₃ es es' ⟨here, same⟩
      exact ih.steps false around here (by rw [SameExpr, Expr.unplaced, Expr.unplaced, same])
    case h_13 =>
      refine Follows.bind (Follows.take_cons hw) ?_
      rintro w₂ _ _ ⟨took, -, -⟩
      refine Follows.bind (Follows.deeper around) ?_
      rintro _ b b' ⟨rfl, deeper⟩
      refine Follows.bind (ih.fields deeper.inner (here.fields took) rfl) ?_
      rintro w₃ fs fs' ⟨here, same⟩
      exact ih.steps false around here (by rw [SameExpr, Expr.unplaced, Expr.unplaced, same])
    case h_14 name =>
      refine Follows.bind (Follows.take_cons hw) ?_
      rintro w₂ _ _ ⟨took, -, -⟩
      have here := here.took took rfl
      refine follows_called ih name around here
        (fun args => steps fuel a (.call name args p.pos) false)
        (fun args => steps (extra + fuel) a' (.call name args p'.pos) false) ?_ ?_
      · intro w₃ args args' here same
        exact ih.steps false around here (by rw [SameExpr, Expr.unplaced, Expr.unplaced, same])
      · refine Follows.bind
          (Follows.of_harmless Follows.harmless_mention Follows.harmless_mention) ?_
        rintro _ _ _ rfl
        exact ih.steps false around here rfl
    case h_15 word =>
      refine Follows.bind (Follows.take_cons hw) ?_
      rintro w₂ _ _ ⟨took, -, -⟩
      have here := here.took took rfl
      split
      · split
        · exact ih.steps false around here rfl
        · exact .of_fails fails_fail
      · split
        · refine follows_called ih word around here
            (fun args => steps fuel a (.call word args p.pos) false)
            (fun args => steps (extra + fuel) a' (.call word args p'.pos) false) ?_
            (.of_fails fails_fail)
          intro w₃ args args' here same
          exact ih.steps false around here
            (by rw [SameExpr, Expr.unplaced, Expr.unplaced, same])
        · exact .of_fails fails_fail
    case h_16 => exact .of_fails fails_fail
    case h_17 => exact .of_fails fails_refuse

/-! ## Chains -/

theorem follows_steps (ih : Following c extra fuel) {root root' : Expr} (opened : Bool)
    (around : Roomier a a') (here : Stands w depths)
    (same : SameExpr root root') :
    Follows c (steps (fuel + 1) a root opened) (steps (extra + fuel + 1) a' root' opened) w
      (Kept depths SameExpr) := by
  rw [steps, steps]
  cases hw : w.tokens with
  | nil =>
    refine Follows.bind (Follows.peek_nil hw) ?_
    rintro _ p p' ⟨rfl, hp, hp'⟩
    simp only [hp, hp']
    exact Follows.pure ⟨here, same⟩
  | cons t ts =>
    refine Follows.bind (Follows.peek_cons hw) ?_
    rintro w₁ p p' ⟨rfl, hp, hp'⟩
    simp only [hp, hp']
    split
    · exact ih.indexStep opened false around here same hw rfl
    · exact ih.indexStep opened true around here same hw rfl
    · exact ih.memberStep opened false around here same hw rfl
    · exact ih.memberStep opened true around here same hw rfl
    · exact Follows.pure ⟨here, same⟩

theorem follows_indexStep (ih : Following c extra fuel) {root root' : Expr} {t : Token}
    {ts : List Token} (opened optional : Bool) (around : Roomier a a')
    (here : Stands w depths) (same : SameExpr root root') (begins : w.tokens = t :: ts)
    (plain : isBrace t = false) :
    Follows c (indexStep (fuel + 1) a root opened optional)
      (indexStep (extra + fuel + 1) a' root' opened optional) w (Kept depths SameExpr) := by
  rw [indexStep, indexStep]
  refine Follows.bind (Follows.take_cons begins) ?_
  rintro w₁ p p' ⟨took, -, -⟩
  refine Follows.bind (Follows.deeper around) ?_
  rintro _ b b' ⟨rfl, deeper⟩
  refine Follows.bind (ih.expression deeper.inner (here.took took plain)) ?_
  rintro w₂ index index' ⟨here, same_index⟩
  rw [← same.refusesIndex same_index, ← same_index.isNoIndex]
  by_cases refused : (!opened && root.refusesIndex index) = true
  · simp only [refused, if_true]
    exact .of_fails fails_fail.bind
  · simp only [refused]
    by_cases none : index.isNoIndex = true
    · simp only [none, if_true]
      exact .of_fails fails_fail.bind
    · simp only [none]
      refine Follows.bind (Follows.expect (by simp)) ?_
      rintro w₃ _ _ took
      refine ih.steps true around (here.took took rfl) (same.addStep ?_)
      rw [Step.unplaced, Step.unplaced, same_index]

theorem follows_memberStep (ih : Following c extra fuel) {root root' : Expr} {t : Token}
    {ts : List Token} (opened optional : Bool) (around : Roomier a a')
    (here : Stands w depths) (same : SameExpr root root') (begins : w.tokens = t :: ts)
    (plain : isBrace t = false) :
    Follows c (memberStep (fuel + 1) a root opened optional)
      (memberStep (extra + fuel + 1) a' root' opened optional) w (Kept depths SameExpr) := by
  rw [memberStep, memberStep]
  refine Follows.bind (Follows.take_cons begins) ?_
  rintro w₁ _ _ ⟨took, -, -⟩
  have here := here.took took plain
  have named (m : String) {w : Ahead} {n n' : Pos} (here : Stands w depths) : 
      Follows c (do
        match (← Reader.peek).token with
        | .sign "(" => do
          let _ ← Reader.take
          let args ← arguments fuel (← a.deeper).inner m []
          steps fuel a (addStep root opened (.method m args n optional)) true
        | .sign "()" => do
          let _ ← Reader.take
          steps fuel a (addStep root opened (.method m [] n optional)) true
        | _ => do
          if methodWords.contains m then Reader.fail (Reader.reservedReason m) n
          steps fuel a (addStep root opened (.property m n optional)) true)
      (do
        match (← Reader.peek).token with
        | .sign "(" => do
          let _ ← Reader.take
          let args ← arguments (extra + fuel) (← a'.deeper).inner m []
          steps (extra + fuel) a' (addStep root' opened (.method m args n' optional)) true
        | .sign "()" => do
          let _ ← Reader.take
          steps (extra + fuel) a' (addStep root' opened (.method m [] n' optional)) true
        | _ => do
          if methodWords.contains m then Reader.fail (Reader.reservedReason m) n'
          steps (extra + fuel) a' (addStep root' opened (.property m n' optional)) true) w
      (Kept depths SameExpr) := by
    refine follows_called ih m around here
      (fun args => steps fuel a (addStep root opened (.method m args n optional)) true)
      (fun args => steps (extra + fuel) a' (addStep root' opened (.method m args n' optional)) true)
      ?_ ?_
    · intro w₂ args args' here same_args
      refine ih.steps true around here (same.addStep ?_)
      rw [Step.unplaced, Step.unplaced, same_args]
    · by_cases reserved : methodWords.contains m = true
      · simp only [reserved, if_true]
        exact .of_fails fails_fail.bind
      · simp only [reserved]
        exact ih.steps true around here (same.addStep rfl)
  refine Follows.take_bind (fun u w₂ n n' took hn hn' => ?_) fun n hn => ?_
  · simp only [hn, hn']
    cases u with
    | name m => exact named m (here.took took rfl)
    | reserved word =>
      dsimp only
      by_cases method : methodWords.contains word = true
      · rw [if_pos method]
        exact named word (here.took took rfl)
      · rw [if_neg method]
        exact .of_fails fails_fail
    | _ => exact .of_fails fails_refuse
  · simp only [hn]
    exact fails_refuse

/-! ## Rows of expressions -/

theorem follows_items (ih : Following c extra fuel) {acc acc' : List Expr}
    (around : Roomier a a') (here : Stands w depths) (same : SameExprs acc acc') :
    Follows c (items (fuel + 1) a acc) (items (extra + fuel + 1) a' acc')
      w (Kept depths SameExprs) := by
  rw [items, items]
  refine Follows.bind (Follows.accept (by simp) (by simp)) ?_
  rintro w₁ _ found ⟨rfl, ⟨rfl, took⟩ | ⟨rfl, rfl, -⟩⟩
  · exact Follows.pure ⟨here.took took rfl, same.reverse⟩
  · simp only [Bool.false_eq_true, if_false]
    cases hw : w₁.tokens with
    | nil =>
      refine Follows.bind (Follows.peek_nil hw) ?_
      rintro _ p p' ⟨rfl, hp, -⟩
      simp only [hp, if_true]
      exact .of_fails fails_fail
    | cons t ts =>
      refine Follows.bind (Follows.peek_cons hw) ?_
      rintro _ p p' ⟨rfl, hp, hp'⟩
      simp only [hp, hp']
      split
      · exact .of_fails fails_fail
      · refine Follows.bind (ih.expression around here) ?_
        rintro w₂ e e' ⟨here, same_expr⟩
        refine Follows.take_bind (fun u w₃ q q' took hq hq' => ?_) fun q hq => ?_
        · simp only [hq, hq']
          split
          · rename_i closing
            exact Follows.pure
              ⟨here.took took (by rw [closing]; rfl), (same.cons same_expr).reverse⟩
          · split
            · rename_i comma
              exact ih.items around (here.took took (by rw [comma]; rfl)) (same.cons same_expr)
            · split
              · exact .of_fails fails_fail
              · exact .of_fails fails_refuse
        · simp only [hq, reduceCtorEq, if_false, if_true]
          exact fails_fail

/-- The rest of a field behind its name, and the fields behind it. -/
def fieldBehind (fuel : Nat) (a : Around) (acc : List Field) (p : Pos) (name : String) :
    Reader (List Field) := do
  if acc.any fun f => match f with | .mk m _ => m = name then
    Reader.fail ("Duplicated property for object map literal: '" ++ name ++ "'") p
  let _ ← Reader.expect (.sign ":")
    ("to follow the property '" ++ name ++ "' in this object map literal")
  let e ← expression fuel a
  let q ← Reader.take
  if q.token = .sign "\x7d" then return (Field.mk name e :: acc).reverse
  else if q.token = .sign "," then fields fuel a (Field.mk name e :: acc)
  else
    match q.token with
    | .name _ =>
      Reader.refuse (Reader.missing "," "to separate the items of this object map literal") q
    | _ => Reader.refuse openMap q

theorem follows_fieldBehind (ih : Following c extra fuel) {acc acc' : List Field} {p p' : Pos}
    {name : String} (around : Roomier a a') (here : Encloses w depths)
    (same : SameFields acc acc') :
    Follows c (fieldBehind fuel a acc p name) (fieldBehind (extra + fuel) a' acc' p' name) w
      (Kept depths SameFields) := by
  unfold fieldBehind
  have same_names : (acc'.any fun f => match f with | .mk m _ => m = name) =
      acc.any fun f => match f with | .mk m _ => m = name :=
    (same.any name).symm
  rw [same_names]
  by_cases twice : (acc.any fun f => match f with | .mk m _ => m = name) = true
  · rw [if_pos twice]
    exact .of_fails fails_fail.bind
  · rw [if_neg twice, if_neg twice]
    refine Follows.bind (Follows.expect (by simp)) ?_
    rintro w₁ _ _ took
    have here := here.took took rfl
    refine Follows.bind (ih.expression around here.stands) ?_
    rintro w₂ e e' ⟨kept, same_expr⟩
    have here := here.kept kept
    have same := same.cons name same_expr
    refine Follows.take_bind (fun t w₃ q q' took hq hq' => ?_) fun q hq => ?_
    · simp only [hq, hq']
      split
      · rename_i closing
        exact Follows.pure ⟨here.closed (closing ▸ took), same.reverse⟩
      · split
        · rename_i comma
          exact ih.fields around (here.took took (by rw [comma]; rfl)) same
        · split
          · exact .of_fails fails_refuse
          · exact .of_fails fails_refuse
    · simp only [hq, reduceCtorEq, if_false]
      exact fails_refuse

theorem follows_fields (ih : Following c extra fuel) {acc acc' : List Field}
    (around : Roomier a a') (here : Encloses w depths) (same : SameFields acc acc') :
    Follows c (fields (fuel + 1) a acc) (fields (extra + fuel + 1) a' acc') w
      (Kept depths SameFields) := by
  rw [fields, fields]
  refine Follows.bind (Follows.accept (by simp) (by simp)) ?_
  rintro w₁ _ found ⟨rfl, ⟨rfl, took⟩ | ⟨rfl, rfl, -⟩⟩
  · exact Follows.pure ⟨here.closed took, same.reverse⟩
  · simp only [Bool.false_eq_true, if_false]
    refine Follows.take_bind (fun t w₂ n n' took hn hn' => ?_) fun n hn => ?_
    · simp only [hn, hn']
      cases t
      case name name => exact follows_fieldBehind ih around (here.took took rfl) same
      case text name => exact follows_fieldBehind ih around (here.took took rfl) same
      case reserved word => exact .of_fails fails_fail.bind
      case ended => exact .of_fails fails_fail.bind
      all_goals exact .of_fails fails_refuse.bind
    · simp only [hn]
      exact fails_fail.bind

theorem follows_arguments (ih : Following c extra fuel) {acc acc' : List Expr} (function : String)
    (around : Roomier a a') (here : Stands w depths)
    (same : SameExprs acc acc') :
    Follows c (arguments (fuel + 1) a function acc) (arguments (extra + fuel + 1) a' function acc')
      w
      (Kept depths SameExprs) := by
  rw [arguments, arguments]
  cases hw : w.tokens with
  | nil =>
    -- Inside, the arguments would end here; alone they lack their parenthesis.
    intro r r' alike es s eq
    have alone := alike.alone
    rw [hw, List.nil_append] at alone
    obtain ⟨p, hr, hp⟩ := List.map_eq_singleton_iff.1 alone
    have peeked : Reader.peek r = .ok (p, r) := by
      rw [Reader.peek, hr]
      rfl
    have refused : Reader.accept (.sign ")") r = .ok (false, r) := by
      refine (bind_of_ok peeked).trans ?_
      simp only [hp, reduceCtorEq, if_false]
      rfl
    rw [bind_of_ok refused, if_neg (by decide), bind_of_ok peeked, if_pos hp] at eq
    exact absurd eq (fails_fail.bind r es s)
  | cons t ts =>
    refine Follows.bind (P := fun w' a b => a = b ∧
      (a = true ∧ Stands w' depths ∨ a = false ∧ w' = w)) ?_ ?_
    · refine Follows.bind (Follows.peek_cons hw) ?_
      rintro w₁ p p' ⟨rfl, hp, hp'⟩
      simp only [hp, hp']
      split
      · rename_i closing
        refine Follows.bind (Follows.take_cons hw) ?_
        rintro w₂ _ _ ⟨took, -, -⟩
        exact Follows.pure ⟨rfl, .inl ⟨rfl, here.took took (by rw [closing]; rfl)⟩⟩
      · exact Follows.pure ⟨rfl, .inr ⟨rfl, rfl⟩⟩
    · rintro w₁ _ found ⟨rfl, ⟨rfl, here⟩ | ⟨rfl, rfl⟩⟩
      · exact Follows.pure ⟨here, same.reverse⟩
      · simp only [Bool.false_eq_true, if_false]
        refine Follows.bind (Follows.peek_cons hw) ?_
        rintro w₂ p p' ⟨rfl, hp, hp'⟩
        simp only [hp, hp']
        by_cases ended : t = .ended
        · simp only [ended, if_true]
          exact .of_fails fails_fail.bind
        · simp only [ended]
          refine Follows.bind (ih.expression around here) ?_
          rintro w₃ e e' ⟨here, same_expr⟩
          refine Follows.take_bind (fun u w₄ q q' took hq hq' => ?_) fun q hq => ?_
          · simp only [hq, hq']
            split
            · rename_i closing
              exact Follows.pure
                ⟨here.took took (by rw [closing]; rfl), (same.cons same_expr).reverse⟩
            · split
              · rename_i comma
                exact ih.arguments function around (here.took took (by rw [comma]; rfl))
                  (same.cons same_expr)
              · split
                · exact .of_fails fails_fail
                · exact .of_fails fails_refuse
          · simp only [hq, reduceCtorEq, if_false, if_true]
            exact fails_fail

theorem follows_pieces (ih : Following c extra fuel) {acc acc' : List Expr}
    (around : Roomier a a') (here : Opens w depths) (same : SameExprs acc acc') :
    Follows c (pieces (fuel + 1) a acc) (pieces (extra + fuel + 1) a' acc')
      w (Kept depths SameExprs) := by
  rw [pieces, pieces]
  refine Follows.bind (ih.block around here) ?_
  rintro w₁ b b' ⟨here, same_block⟩
  have piece : SameExpr (.statement b) (.statement b') := by
    rw [SameExpr, Expr.unplaced, Expr.unplaced, same_block]
  have same := same.concat piece
  refine Follows.take_bind (fun u w₂ q q' took hq hq' => ?_) fun q hq => ?_
  · have extended (text : String) :
        SameExprs (if text = "" then acc ++ [.statement b]
            else acc ++ [.statement b] ++ [.const (.string text) q.pos])
          (if text = "" then acc' ++ [.statement b']
            else acc' ++ [.statement b'] ++ [.const (.string text) q'.pos]) := by
      split
      · exact same
      · exact same.concat rfl
    simp only [hq, hq']
    split
    · exact Follows.pure ⟨here.took took rfl, extended _⟩
    · exact ih.pieces around (here.piece took) (extended _)
    · exact .of_fails fails_refuse
  · simp only [hq]
    exact fails_refuse

/-- The readers of expressions are followed by those of the same text inside a script. -/
theorem following (c : Passage) (extra fuel : Nat) : Following c extra fuel := by
  induction fuel with
  | zero =>
    have nothing {α β : Type} {m : Reader α} {w : Ahead} {P : Ahead → β → α → Prop} :
        Follows c Reader.tooDeep m w P :=
      .of_fails fails_tooDeep
    constructor <;> intros <;> exact nothing
  | succ fuel ih =>
    exact {
      statement := follows_statement ih
      result := follows_result ih
      statements := follows_statements ih
      block := follows_block ih
      declaration := follows_declaration ih
      branch := follows_branch ih
      condition := follows_condition ih
      whileLoop := follows_whileLoop ih
      endless := follows_endless ih
      doLoop := follows_doLoop ih
      forLoop := follows_forLoop ih
      attempt := follows_attempt ih
      selection := follows_selection ih
      cases := follows_cases ih
      patternList := follows_patternList ih
      parameters := follows_parameters ih
      expression := follows_expression ih
      operation := follows_operation ih
      operand := follows_operand ih
      primary := follows_primary ih
      steps := follows_steps ih
      indexStep := follows_indexStep ih
      memberStep := follows_memberStep ih
      arguments := follows_arguments ih
      items := follows_items ih
      fields := follows_fields ih
      pieces := follows_pieces ih
      closure := follows_closure ih }

end

end Parser

end Stencil.Script
