import Stencil.Proofs.Script.Following

/-!
# Statements inside a script

What is read on the text of an expression alone is read in front of a closing parenthesis too, with
the same tree but for the places.  A reader inside has at least the fuel of the one alone.  Here are
the readers of statements, which an expression reaches through its blocks and closures.
-/

namespace Stencil.Script

open Lexer (isBrace)

namespace Parser

/-- The readers with some fuel are followed by those with the same fuel or more. -/
structure Following (c : Passage) (extra fuel : Nat) : Prop where
  statement {a a' w depths} (around : Roomier a a')
    (here : Stands w depths) (filled : w.tokens ≠ []) :
    Follows c (statement fuel a) (statement (extra + fuel) a') w (Kept depths SameStmt)
  result {a a' w depths} (around : Roomier a a')
    (here : Stands w depths) (filled : w.tokens ≠ []) :
    Follows c (result fuel a) (result (extra + fuel) a') w (Kept depths SameOption)
  statements {a a' w depths acc acc'} (around : Roomier a a')
    (here : Encloses w depths) (same : SameStmts acc acc') :
    Follows c (statements fuel a acc) (statements (extra + fuel) a' acc') w (Kept depths SameStmts)
  block {a a' w depths} (around : Roomier a a') (here : Opens w depths) :
    Follows c (block fuel a) (block (extra + fuel) a') w (Kept depths SameStmt)
  declaration {a a' w depths k ts} (constant : Bool)
    (around : Roomier a a') (here : Stands w depths) (begins : w.tokens = .word k :: ts) :
    Follows c (declaration fuel a constant) (declaration (extra + fuel) a' constant)
      w (Kept depths SameStmt)
  branch {a a' w depths k ts} (around : Roomier a a')
    (here : Stands w depths) (begins : w.tokens = .word k :: ts) :
    Follows c (branch fuel a) (branch (extra + fuel) a') w (Kept depths SameStmt)
  condition {a a' w depths} (around : Roomier a a')
    (here : Stands w depths) :
    Follows c (condition fuel a) (condition (extra + fuel) a') w (Kept depths SameExpr)
  whileLoop {a a' w depths k ts} (around : Roomier a a')
    (here : Stands w depths) (begins : w.tokens = .word k :: ts) :
    Follows c (whileLoop fuel a) (whileLoop (extra + fuel) a') w (Kept depths SameStmt)
  endless {a a' w depths k ts} (around : Roomier a a')
    (here : Stands w depths) (begins : w.tokens = .word k :: ts) :
    Follows c (endless fuel a) (endless (extra + fuel) a') w (Kept depths SameStmt)
  doLoop {a a' w depths k ts} (around : Roomier a a')
    (here : Stands w depths) (begins : w.tokens = .word k :: ts) :
    Follows c (doLoop fuel a) (doLoop (extra + fuel) a') w (Kept depths SameStmt)
  forLoop {a a' w depths k ts} (around : Roomier a a')
    (here : Stands w depths) (begins : w.tokens = .word k :: ts) :
    Follows c (forLoop fuel a) (forLoop (extra + fuel) a') w (Kept depths SameStmt)
  attempt {a a' w depths k ts} (around : Roomier a a')
    (here : Stands w depths) (begins : w.tokens = .word k :: ts) :
    Follows c (attempt fuel a) (attempt (extra + fuel) a') w (Kept depths SameStmt)
  selection {a a' w depths k ts} (around : Roomier a a')
    (here : Stands w depths) (begins : w.tokens = .word k :: ts) :
    Follows c (selection fuel a) (selection (extra + fuel) a') w (Kept depths SameStmt)
  cases {a a' w depths last last' acc acc'} (around : Roomier a a')
    (here : Encloses w depths) (default : last.isSome = last'.isSome)
    (same : SameCases acc acc') :
    Follows c (cases fuel a last acc) (cases (extra + fuel) a' last' acc') w (Kept depths SameCases)
  patternList {a a' w depths acc acc'} (around : Roomier a a')
    (here : Stands w depths) (same : SameExprs acc acc') :
    Follows c (patternList fuel a acc) (patternList (extra + fuel) a' acc')
      w (Kept depths SameExprs)
  parameters {w depths} (acc : List String) (here : Stands w depths) :
    Follows c (parameters fuel (.sign "|") acc) (parameters (extra + fuel) (.sign "|") acc) w
      (fun w' names names' => Kept depths Eq w' names names' ∧ w'.tokens ≠ [])
  expression {a a' w depths} (around : Roomier a a')
    (here : Stands w depths) :
    Follows c (expression fuel a) (expression (extra + fuel) a') w (Kept depths SameExpr)
  operation {a a' w depths least left left'} (around : Roomier a a')
    (here : Stands w depths) (positive : 0 < least) (same : SameExpr left left') :
    Follows c (operation fuel a least left) (operation (extra + fuel) a' least left')
      w (Kept depths SameExpr)
  operand {a a' w depths} (around : Roomier a a')
    (here : Stands w depths) :
    Follows c (operand fuel a) (operand (extra + fuel) a') w (Kept depths SameExpr)
  primary {a a' w depths} (around : Roomier a a')
    (here : Stands w depths) :
    Follows c (primary fuel a) (primary (extra + fuel) a') w (Kept depths SameExpr)
  steps {a a' w depths root root'} (opened : Bool)
    (around : Roomier a a') (here : Stands w depths) (same : SameExpr root root') :
    Follows c (steps fuel a root opened) (steps (extra + fuel) a' root' opened)
      w (Kept depths SameExpr)
  indexStep {a a' w depths root root' t ts} (opened optional : Bool)
    (around : Roomier a a') (here : Stands w depths) (same : SameExpr root root')
    (begins : w.tokens = t :: ts) (plain : isBrace t = false) :
    Follows c (indexStep fuel a root opened optional)
      (indexStep (extra + fuel) a' root' opened optional) w
      (Kept depths SameExpr)
  memberStep {a a' w depths root root' t ts} (opened optional : Bool)
    (around : Roomier a a') (here : Stands w depths) (same : SameExpr root root')
    (begins : w.tokens = t :: ts) (plain : isBrace t = false) :
    Follows c (memberStep fuel a root opened optional)
      (memberStep (extra + fuel) a' root' opened optional) w
      (Kept depths SameExpr)
  arguments {a a' w depths acc acc'} (function : String)
    (around : Roomier a a') (here : Stands w depths) (same : SameExprs acc acc') :
    Follows c (arguments fuel a function acc) (arguments (extra + fuel) a' function acc') w
      (Kept depths SameExprs)
  items {a a' w depths acc acc'} (around : Roomier a a')
    (here : Stands w depths) (same : SameExprs acc acc') :
    Follows c (items fuel a acc) (items (extra + fuel) a' acc') w (Kept depths SameExprs)
  fields {a a' w depths acc acc'} (around : Roomier a a')
    (here : Encloses w depths) (same : SameFields acc acc') :
    Follows c (fields fuel a acc) (fields (extra + fuel) a' acc') w (Kept depths SameFields)
  pieces {a a' w depths acc acc'} (around : Roomier a a')
    (here : Opens w depths) (same : SameExprs acc acc') :
    Follows c (pieces fuel a acc) (pieces (extra + fuel) a' acc') w (Kept depths SameExprs)
  closure {a a' w depths p p'} (params : List String)
    (here : Stands w depths) (filled : w.tokens ≠ []) :
    Follows c (closure fuel a params p) (closure (extra + fuel) a' params p')
      w (Kept depths SameExpr)

section

variable {c : Passage} {extra fuel : Nat} {a a' : Around} {w : Ahead} {depths : List Nat}

theorem follows_assignment {op : Option String} {target target' value value' : Expr} {p p' : Pos}
    (here : Stands w depths) (same : SameExpr target target') (same_value : SameExpr value value') :
    Follows c (assignment op target value p) (assignment op target' value' p') w
      (Kept depths SameStmt) := by
  have assigned : Follows c (Pure.pure (.assign op target value p))
      (Pure.pure (.assign op target' value' p')) w (Kept depths SameStmt) :=
    Follows.pure ⟨here, by
      rw [SameStmt, Stmt.unplaced, Stmt.unplaced, same, same_value]⟩
  refine Follows.get_bind fun r r' alike => ?_
  cases target with
  | «variable» name q =>
    obtain ⟨q', rfl⟩ := Expr.variable_of_unplaced same.symm
    dsimp only
    by_cases constant : r.vars.lookup name = some true
    · simp only [constant]
      exact .of_fails fails_fail
    · have constant' := mt (alike.constants name) constant
      split
      · contradiction
      · exact assigned
  | this q =>
    obtain ⟨q', rfl⟩ := Expr.this_of_unplaced same.symm
    exact assigned
  | chain root steps =>
    obtain ⟨root', steps', rfl, same_root, same_steps⟩ := Expr.chain_of_unplaced same.symm
    rw [unplacedSteps_eq_map] at same_steps
    have open_ : assignable steps' = assignable steps := by
      rw [← assignable_unplaced, same_steps, assignable_unplaced]
    simp only [open_]
    split
    · cases root with
      | «variable» name q =>
        obtain ⟨q', rfl⟩ := Expr.variable_of_unplaced same_root
        exact assigned
      | this q =>
        obtain ⟨q', rfl⟩ := Expr.this_of_unplaced same_root
        exact assigned
      | _ => exact .of_fails fails_fail
    · exact .of_fails fails_fail
  | _ => exact .of_fails fails_fail

theorem follows_asCondition {e e' : Expr} (here : Stands w depths) (same : SameExpr e e') :
    Follows c (asCondition e) (asCondition e') w (Kept depths SameExpr) := by
  unfold asCondition
  rw [← same.maybeBool]
  split
  · exact Follows.pure ⟨here, same⟩
  · exact .of_fails fails_refused

theorem follows_combine {op : Token} {left left' right right' : Expr} {p p' : Pos}
    (here : Stands w depths) (same : SameExpr left left') (same_right : SameExpr right right') :
    Follows c (combine op left right p) (combine op left' right' p') w (Kept depths SameExpr) := by
  have operator {name : String} {args args' : List Expr} {p p' : Pos}
      (same : SameExprs args args') :
      SameExpr (.operator name args p) (.operator name args' p') := by
    rw [SameExpr, Expr.unplaced, Expr.unplaced, same]
  have contains : SameExpr (.operator "contains" [right, left] left.pos)
      (.operator "contains" [right', left'] left'.pos) :=
    operator (.cons same_right (.cons same rfl))
  unfold combine
  split
  · split
    · refine Follows.bind (follows_asCondition here same) ?_
      rintro w₁ e e' ⟨here, same⟩
      refine Follows.bind (follows_asCondition here same_right) ?_
      rintro w₂ f f' ⟨here, same'⟩
      exact Follows.pure ⟨here, by
        rw [SameExpr, Expr.unplaced, Expr.unplaced, same, same']⟩
    · split
      · refine Follows.bind (follows_asCondition here same) ?_
        rintro w₁ e e' ⟨here, same⟩
        refine Follows.bind (follows_asCondition here same_right) ?_
        rintro w₂ f f' ⟨here, same'⟩
        exact Follows.pure ⟨here, by
          rw [SameExpr, Expr.unplaced, Expr.unplaced, same, same']⟩
      · split
        · exact Follows.pure
            ⟨here, by
            rw [SameExpr, Expr.unplaced, Expr.unplaced, same, same_right]⟩
        · split
          · exact Follows.pure ⟨here, operator (.cons contains rfl)⟩
          · exact Follows.pure ⟨here, operator (.cons same (.cons same_right rfl))⟩
  · exact Follows.pure ⟨here, contains⟩

theorem isBrace_of_assignmentOperator? {t : Token} {op : String}
    (h : assignmentOperator? t = some op) : isBrace t = false :=
  Lexer.isBrace_eq_false_of (P := fun t => (assignmentOperator? t).isSome) (by rw [h]; rfl) (by decide)
    fun _ => Bool.false_ne_true

/-! ## Statements -/

theorem follows_statement (ih : Following c extra fuel) (around : Roomier a a')
    (here : Stands w depths) (filled : w.tokens ≠ []) :
    Follows c (statement (fuel + 1) a) (statement (extra + fuel + 1) a')
      w (Kept depths SameStmt) := by
  obtain ⟨t, ts, hw⟩ := List.exists_cons_of_ne_nil filled
  have nested {m m' : Around → Reader Stmt}
      (h : ∀ b b', Roomier b b' → Follows c (m b) (m' b') w (Kept depths SameStmt)) :
      Follows c (a.deeper >>= m) (a'.deeper >>= m') w (Kept depths SameStmt) :=
    Follows.bind (Follows.deeper around) fun _ b b' ⟨eq, deeper⟩ => eq ▸ h b b' deeper
  rw [statement, statement]
  refine Follows.bind (Follows.peek_cons hw) ?_
  rintro _ p p' ⟨rfl, hp, hp'⟩
  simp only [hp, hp', around.top, around.top', around.inLoop, Bool.false_eq_true, if_false]
  split
  case h_1 => exact Follows.pure ⟨here, rfl⟩
  case h_2 =>
    refine Follows.bind (Follows.take_cons hw) ?_
    rintro w₁ _ _ ⟨took, -, -⟩
    exact Follows.pure ⟨here.took took rfl, rfl⟩
  case h_3 => exact nested fun b b' deeper => ih.block deeper here.opens
  case h_4 => exact .of_fails fails_fail
  case h_5 => exact .of_fails fails_fail
  case h_6 => exact nested fun b b' deeper => ih.branch deeper here hw
  case h_7 => exact nested fun b b' deeper => ih.selection deeper here hw
  case h_8 => exact nested fun b b' deeper => ih.whileLoop deeper here hw
  case h_9 => exact nested fun b b' deeper => ih.endless deeper here hw
  case h_10 => exact nested fun b b' deeper => ih.doLoop deeper here hw
  case h_11 => exact nested fun b b' deeper => ih.forLoop deeper here hw
  case h_12 =>
    split
    · refine Follows.bind (Follows.take_cons hw) ?_
      rintro w₁ _ _ ⟨took, -, -⟩
      exact Follows.pure ⟨here.took took rfl, rfl⟩
    · exact .of_fails fails_fail
  case h_13 =>
    split
    · refine Follows.bind (Follows.take_cons hw) ?_
      rintro w₁ _ _ ⟨took, -, -⟩
      refine Follows.bind (Follows.sees (took.filled (by simp [openers]))) ?_
      rintro _ found _ ⟨rfl, rfl⟩
      cases found with
      | true => exact Follows.pure ⟨here.took took rfl, rfl⟩
      | false =>
        refine Follows.bind (ih.expression around.inner (here.took took rfl)) ?_
        rintro w₂ e e' ⟨here, same⟩
        exact Follows.pure ⟨here, by
          rw [SameStmt, Stmt.unplaced, Stmt.unplaced, SameOption.some same]⟩
    · exact .of_fails fails_fail
  case h_14 =>
    refine Follows.bind (Follows.take_cons hw) ?_
    rintro w₁ _ _ ⟨took, -, -⟩
    have filled := took.filled (by simp [openers])
    refine Follows.bind (ih.result around (here.took took rfl) filled) ?_
    rintro w₂ e e' ⟨here, same⟩
    exact Follows.pure ⟨here, by rw [SameStmt, Stmt.unplaced, Stmt.unplaced, same]⟩
  case h_15 =>
    refine Follows.bind (Follows.take_cons hw) ?_
    rintro w₁ _ _ ⟨took, -, -⟩
    have filled := took.filled (by simp [openers])
    refine Follows.bind (ih.result around (here.took took rfl) filled) ?_
    rintro w₂ e e' ⟨here, same⟩
    exact Follows.pure ⟨here, by rw [SameStmt, Stmt.unplaced, Stmt.unplaced, same]⟩
  case h_16 => exact nested fun b b' deeper => ih.attempt deeper here hw
  case h_17 => exact ih.declaration false around.inner here hw
  case h_18 => exact ih.declaration true around.inner here hw
  case h_19 =>
    refine Follows.bind (Follows.take_cons hw) ?_
    rintro w₁ _ _ ⟨took, -, -⟩
    refine Follows.bind (Follows.deeper around.inner) ?_
    rintro _ b b' ⟨rfl, deeper⟩
    refine Follows.bind (ih.expression deeper (here.took took rfl)) ?_
    rintro w₂ e e' ⟨here, same⟩
    have loaded : SameStmt (.load e p.pos) (.load e' p'.pos) := by
      rw [SameStmt, Stmt.unplaced, Stmt.unplaced, same]
    refine Follows.bind (Follows.accept (by simp) (by simp)) ?_
    rintro w₃ _ found ⟨rfl, ⟨rfl, took⟩ | ⟨rfl, rfl, -⟩⟩
    · refine Follows.bind Follows.variableName ?_
      rintro w₄ _ _ ⟨-, name, took'⟩
      exact Follows.pure ⟨(here.took took rfl).took took' rfl, loaded⟩
    · exact Follows.pure ⟨here, loaded⟩
  case h_20 => exact .of_fails fails_fail
  case h_21 =>
    refine Follows.bind (ih.expression around.inner here) ?_
    rintro w₁ target target' ⟨here, same⟩
    cases hw₁ : w₁.tokens with
    | nil =>
      refine Follows.bind (Follows.peek_nil hw₁) ?_
      rintro _ q q' ⟨rfl, hq, hq'⟩
      simp only [hq, hq', reduceCtorEq, if_false]
      exact Follows.pure ⟨here, by rw [SameStmt, Stmt.unplaced, Stmt.unplaced, same]⟩
    | cons u us =>
      refine Follows.bind (Follows.peek_cons hw₁) ?_
      rintro _ q q' ⟨rfl, hq, hq'⟩
      simp only [hq, hq']
      split
      · rename_i equals
        refine Follows.bind (Follows.take_cons hw₁) ?_
        rintro w₂ _ _ ⟨took, -, -⟩
        refine Follows.bind (ih.expression around.inner (here.took took (by rw [equals]; rfl))) ?_
        rintro w₃ value value' ⟨here, same_value⟩
        exact follows_assignment here same same_value
      · split
        · rename_i op operator
          refine Follows.bind (Follows.take_cons hw₁) ?_
          rintro w₂ _ _ ⟨took, -, -⟩
          have plain := isBrace_of_assignmentOperator? operator
          refine Follows.bind (ih.expression around.inner (here.took took plain)) ?_
          rintro w₃ value value' ⟨here, same_value⟩
          exact follows_assignment here same same_value
        · exact Follows.pure ⟨here, by rw [SameStmt, Stmt.unplaced, Stmt.unplaced, same]⟩


theorem follows_result (ih : Following c extra fuel) (around : Roomier a a')
    (here : Stands w depths) (filled : w.tokens ≠ []) :
    Follows c (result (fuel + 1) a) (result (extra + fuel + 1) a') w (Kept depths SameOption) := by
  rw [result, result]
  refine Follows.bind (Follows.sees filled) ?_
  rintro _ found _ ⟨rfl, rfl⟩
  cases found with
  | true => exact Follows.pure ⟨here, rfl⟩
  | false =>
    simp only [around.top, around.top', Bool.not_false, Bool.true_and, Bool.false_eq_true, if_false]
    refine Follows.bind (Follows.sees filled) ?_
    rintro _ found _ ⟨rfl, rfl⟩
    cases found with
    | true => exact Follows.pure ⟨here, rfl⟩
    | false =>
      refine Follows.bind (ih.expression around.inner here) ?_
      rintro w₁ e e' ⟨here, same⟩
      exact Follows.pure ⟨here, .some same⟩

theorem follows_statements (ih : Following c extra fuel) {acc acc' : List Stmt}
    (around : Roomier a a') (here : Encloses w depths) (same : SameStmts acc acc') :
    Follows c (statements (fuel + 1) a acc) (statements (extra + fuel + 1) a' acc') w
      (Kept depths SameStmts) := by
  rw [statements, statements]
  refine Follows.bind (Follows.accept (by simp) (by simp)) ?_
  rintro w₁ _ found ⟨rfl, ⟨rfl, took⟩ | ⟨rfl, rfl, -⟩⟩
  · exact Follows.pure ⟨here.closed took, same.reverse⟩
  · simp only [Bool.false_eq_true, if_false]
    cases hw : w₁.tokens with
    | nil =>
      refine Follows.bind (Follows.peek_nil hw) ?_
      rintro _ p p' ⟨rfl, hp, -⟩
      simp only [hp, if_true]
      exact .of_fails fails_fail
    | cons t ts =>
      refine Follows.bind (Follows.peek_cons hw) ?_
      rintro _ p p' ⟨rfl, hp, hp'⟩
      simp only [hp, hp']
      split
      · exact .of_fails fails_fail
      · refine Follows.bind (ih.statement around here.stands (by simp [hw])) ?_
        rintro w₂ s s' ⟨kept, same_stmt⟩
        have here := here.kept kept
        rw [← same_stmt.isSkip, ← same_stmt.endsItself]
        split
        · exact ih.statements around here same
        · refine Follows.bind (Follows.accept (by simp) (by simp)) ?_
          rintro w₃ _ found ⟨rfl, ⟨rfl, took⟩ | ⟨rfl, rfl, -⟩⟩
          · exact Follows.pure ⟨here.closed took, (same.cons same_stmt).reverse⟩
          · simp only [Bool.false_eq_true, if_false]
            split
            · exact ih.statements around here (same.cons same_stmt)
            · refine Follows.bind (Follows.expect (by simp)) ?_
              rintro w₄ _ _ took
              exact ih.statements around (here.took took rfl) (same.cons same_stmt)

theorem follows_block (ih : Following c extra fuel) (around : Roomier a a')
    (here : Opens w depths) :
    Follows c (block (fuel + 1) a) (block (extra + fuel + 1) a') w (Kept depths SameStmt) := by
  rw [block, block]
  refine Follows.bind (Follows.expect (by simp)) ?_
  rintro w₁ p p' took
  refine Follows.bind (Follows.deeper around.inner) ?_
  rintro _ b b' ⟨rfl, deeper⟩
  refine Follows.bind (Follows.enclosed (ih.statements deeper (here _ took) rfl)) ?_
  rintro w₂ body body' ⟨here, same⟩
  exact Follows.pure ⟨here, by rw [SameStmt, Stmt.unplaced, Stmt.unplaced, same]⟩

theorem follows_declaration (ih : Following c extra fuel) {k : String} {ts : List Token}
    (constant : Bool) (around : Roomier a a') (here : Stands w depths)
    (begins : w.tokens = .word k :: ts) :
    Follows c (declaration (fuel + 1) a constant) (declaration (extra + fuel + 1) a' constant) w
      (Kept depths SameStmt) := by
  rw [declaration, declaration]
  refine Follows.bind (Follows.take_cons begins) ?_
  rintro w₁ p p' ⟨took, -, -⟩
  refine Follows.bind Follows.variableName ?_
  rintro w₂ ⟨n, q⟩ ⟨_, q'⟩ ⟨rfl, name, took'⟩
  have here := (here.took took rfl).took took' rfl
  have declared {w : Ahead} {e e' : Expr} (here : Stands w depths) (same : SameExpr e e') :
      Follows c (do
          Reader.bind n constant
          return Stmt.declare n e constant p.pos)
        (do
          Reader.bind n constant
          return Stmt.declare n e' constant p'.pos) w (Kept depths SameStmt) := by
    refine Follows.bind Follows.bind_variable ?_
    rintro _ _ _ rfl
    exact Follows.pure ⟨here, by rw [SameStmt, Stmt.unplaced, Stmt.unplaced, same]⟩
  refine Follows.bind (Follows.accept (by simp) (by simp)) ?_
  rintro w₃ _ found ⟨rfl, ⟨rfl, took⟩ | ⟨rfl, rfl, -⟩⟩
  · refine Follows.bind (ih.expression around (here.took took rfl)) ?_
    rintro w₄ e e' ⟨here, same⟩
    exact declared here same
  · exact declared here rfl

theorem follows_branch (ih : Following c extra fuel) {k : String} {ts : List Token}
    (around : Roomier a a') (here : Stands w depths) (begins : w.tokens = .word k :: ts) :
    Follows c (branch (fuel + 1) a) (branch (extra + fuel + 1) a') w (Kept depths SameStmt) := by
  rw [branch, branch]
  refine Follows.bind (Follows.take_cons begins) ?_
  rintro w₁ p p' ⟨took, -, -⟩
  refine Follows.bind (ih.condition around (here.took took rfl)) ?_
  rintro w₂ e e' ⟨here, same⟩
  refine Follows.bind (ih.block around here.opens) ?_
  rintro w₃ yes yes' ⟨here, same_yes⟩
  have branched {no no' : Stmt} (same_no : SameStmt no no') :
      SameStmt (.branch e yes no p.pos) (.branch e' yes' no' p'.pos) := by
    rw [SameStmt, Stmt.unplaced, Stmt.unplaced, same, same_yes, same_no]
  refine Follows.bind (Follows.accept (by simp) (by simp)) ?_
  rintro w₄ _ found ⟨rfl, ⟨rfl, took⟩ | ⟨rfl, rfl, -⟩⟩
  · have here := here.took took rfl
    have otherwise : Follows c (block fuel a >>= fun no => Pure.pure (.branch e yes no p.pos))
        (block (extra + fuel) a' >>= fun no => Pure.pure (.branch e' yes' no p'.pos)) w₄
        (Kept depths SameStmt) := by
      refine Follows.bind (ih.block around here.opens) ?_
      rintro w₅ no no' ⟨here, same_no⟩
      exact Follows.pure ⟨here, branched same_no⟩
    cases hw : w₄.tokens with
    | nil =>
      refine Follows.bind (Follows.peek_nil hw) ?_
      rintro _ q q' ⟨rfl, hq, hq'⟩
      simp only [hq, hq', reduceCtorEq, if_false]
      exact otherwise
    | cons t us =>
      refine Follows.bind (Follows.peek_cons hw) ?_
      rintro _ q q' ⟨rfl, hq, hq'⟩
      simp only [hq, hq']
      split
      · rename_i again
        refine Follows.bind (ih.branch around here (hw.trans (by rw [again]))) ?_
        rintro w₅ no no' ⟨here, same_no⟩
        exact Follows.pure ⟨here, branched same_no⟩
      · exact otherwise
  · exact Follows.pure ⟨here, branched rfl⟩

theorem follows_noBlock :
    Follows c noBlock noBlock w (fun w' _ _ => w' = w) := by
  unfold noBlock
  cases hw : w.tokens with
  | nil =>
    refine Follows.bind (Follows.peek_nil hw) ?_
    rintro _ p p' ⟨rfl, hp, hp'⟩
    simp only [hp, hp', reduceCtorEq, Token.sign.injEq, if_false]
    exact Follows.pure rfl
  | cons t ts =>
    refine Follows.bind (Follows.peek_cons hw) ?_
    rintro _ p p' ⟨rfl, hp, hp'⟩
    simp only [hp, hp']
    split
    · exact .of_fails fails_fail
    · exact Follows.pure rfl

theorem follows_noAssignment :
    Follows c noAssignment noAssignment w (fun w' _ _ => w' = w) := by
  unfold noAssignment
  cases hw : w.tokens with
  | nil =>
    refine Follows.bind (Follows.peek_nil hw) ?_
    rintro _ p p' ⟨rfl, hp, hp'⟩
    have none : (assignmentOperator? (.sign ")")).isSome = false := by decide
    simp only [hp, hp', reduceCtorEq, if_false, none]
    exact Follows.pure rfl
  | cons t ts =>
    refine Follows.bind (Follows.peek_cons hw) ?_
    rintro _ p p' ⟨rfl, hp, hp'⟩
    simp only [hp, hp']
    split
    · exact .of_fails fails_fail
    · split
      · exact .of_fails fails_fail
      · exact Follows.pure rfl

theorem follows_condition (ih : Following c extra fuel) (around : Roomier a a')
    (here : Stands w depths) :
    Follows c (condition (fuel + 1) a) (condition (extra + fuel + 1) a')
      w (Kept depths SameExpr) := by
  rw [condition, condition]
  refine Follows.bind follows_noBlock ?_
  rintro _ _ _ rfl
  refine Follows.bind (ih.expression around.inner here) ?_
  rintro w₁ e e' ⟨here, same⟩
  refine Follows.bind (follows_asCondition here same) ?_
  rintro w₂ f f' ⟨here, same⟩
  refine Follows.bind follows_noAssignment ?_
  rintro _ _ _ rfl
  exact Follows.pure ⟨here, same⟩

/-! ## Loops -/

theorem follows_whileLoop (ih : Following c extra fuel) {k : String} {ts : List Token}
    (around : Roomier a a') (here : Stands w depths)
    (begins : w.tokens = .word k :: ts) :
    Follows c (whileLoop (fuel + 1) a) (whileLoop (extra + fuel + 1) a')
      w (Kept depths SameStmt) := by
  rw [whileLoop, whileLoop]
  refine Follows.bind (Follows.take_cons begins) ?_
  rintro w₁ p p' ⟨took, -, -⟩
  refine Follows.bind (ih.condition around (here.took took rfl)) ?_
  rintro w₂ e e' ⟨here, same⟩
  refine Follows.bind (ih.block around.loop here.opens) ?_
  rintro w₃ body body' ⟨here, same_body⟩
  exact Follows.pure ⟨here, by rw [SameStmt, Stmt.unplaced, Stmt.unplaced, same, same_body]⟩

theorem follows_endless (ih : Following c extra fuel) {k : String} {ts : List Token}
    (around : Roomier a a') (here : Stands w depths) (begins : w.tokens = .word k :: ts) :
    Follows c (endless (fuel + 1) a) (endless (extra + fuel + 1) a') w (Kept depths SameStmt) := by
  rw [endless, endless]
  refine Follows.bind (Follows.take_cons begins) ?_
  rintro w₁ p p' ⟨took, -, -⟩
  refine Follows.bind (ih.block around.loop (here.took took rfl).opens) ?_
  rintro w₂ body body' ⟨here, same⟩
  exact Follows.pure ⟨here, by rw [SameStmt, Stmt.unplaced, Stmt.unplaced, same]⟩

theorem follows_doLoop (ih : Following c extra fuel) {k : String} {ts : List Token}
    (around : Roomier a a') (here : Stands w depths) (begins : w.tokens = .word k :: ts) :
    Follows c (doLoop (fuel + 1) a) (doLoop (extra + fuel + 1) a') w (Kept depths SameStmt) := by
  rw [doLoop, doLoop]
  refine Follows.bind (Follows.take_cons begins) ?_
  rintro w₁ p p' ⟨took, -, -⟩
  refine Follows.bind (ih.block around.loop (here.took took rfl).opens) ?_
  rintro w₂ body body' ⟨here, same⟩
  have repeated (wanted : Bool) {w : Ahead} (here : Stands w depths) :
      Follows c (condition fuel a >>= fun e => Pure.pure (.repeatAfter body e wanted p.pos))
        (condition (extra + fuel) a' >>= fun e => Pure.pure (.repeatAfter body' e wanted p'.pos)) w
        (Kept depths SameStmt) := by
    refine Follows.bind (ih.condition around here) ?_
    rintro w₃ e e' ⟨here, same_condition⟩
    exact Follows.pure ⟨here, by rw [SameStmt, Stmt.unplaced, Stmt.unplaced, same, same_condition]⟩
  refine Follows.take_bind (fun t w₃ q q' took hq hq' => ?_) fun q hq => ?_
  · simp only [hq, hq']
    split
    · rename_i word
      exact repeated true (here.took took (by rw [word]; rfl))
    · split
      · rename_i word
        exact repeated false (here.took took (by rw [word]; rfl))
      · exact .of_fails fails_refuse
  · simp only [hq, reduceCtorEq, if_false]
    exact fails_refuse

theorem follows_loopNames (here : Stands w depths) :
    Follows c loopNames loopNames w (Kept depths Eq) := by
  unfold loopNames
  refine Follows.bind (Follows.accept (by simp) (by simp)) ?_
  rintro w₁ _ found ⟨rfl, ⟨rfl, took⟩ | ⟨rfl, rfl, -⟩⟩
  · refine Follows.bind Follows.variableName ?_
    rintro w₂ ⟨name, p⟩ ⟨_, p'⟩ ⟨rfl, n, took₁⟩
    refine Follows.bind (Follows.expect (by simp)) ?_
    rintro w₃ _ _ took₂
    refine Follows.bind Follows.variableName ?_
    rintro w₄ ⟨counter, q⟩ ⟨_, q'⟩ ⟨rfl, m, took₃⟩
    dsimp only
    by_cases twice : counter = name
    · rw [if_pos twice]
      exact .of_fails fails_fail.bind
    · rw [if_neg twice, if_neg twice]
      refine Follows.bind (Follows.expect (by simp)) ?_
      rintro w₅ _ _ took₄
      have here := (((here.took took rfl).took took₁ rfl).took took₂ rfl).took took₃ rfl
      exact Follows.pure ⟨here.took took₄ rfl, rfl⟩
  · refine Follows.bind Follows.variableName ?_
    rintro w₂ ⟨name, p⟩ ⟨_, p'⟩ ⟨rfl, n, took⟩
    exact Follows.pure ⟨here.took took rfl, rfl⟩

theorem follows_forLoop (ih : Following c extra fuel) {k : String} {ts : List Token}
    (around : Roomier a a') (here : Stands w depths) (begins : w.tokens = .word k :: ts) :
    Follows c (forLoop (fuel + 1) a) (forLoop (extra + fuel + 1) a') w (Kept depths SameStmt) := by
  rw [forLoop, forLoop]
  refine Follows.bind (Follows.take_cons begins) ?_
  rintro w₁ p p' ⟨took, -, -⟩
  refine Follows.bind (follows_loopNames (here.took took rfl)) ?_
  rintro w₂ ⟨name, counter⟩ _ ⟨here, rfl⟩
  refine Follows.bind (Follows.expect (by simp)) ?_
  rintro w₃ _ _ took
  refine Follows.bind follows_noBlock ?_
  rintro _ _ _ rfl
  refine Follows.bind (ih.expression around.inner (here.took took rfl)) ?_
  rintro w₄ e e' ⟨here, same⟩
  rw [← same.maybeIterable]
  have looped : Follows c (do
        Reader.bind name false
        return Stmt.each name counter e (← block fuel { a with inLoop := true }) p.pos)
      (do
        Reader.bind name false
        return Stmt.each name counter e' (← block (extra + fuel) { a' with inLoop := true }) p'.pos)
      w₄ (Kept depths SameStmt) := by
    refine Follows.bind Follows.bind_variable ?_
    rintro _ _ _ rfl
    refine Follows.bind (ih.block around.loop here.opens) ?_
    rintro w₅ body body' ⟨here, same_body⟩
    exact Follows.pure ⟨here, by rw [SameStmt, Stmt.unplaced, Stmt.unplaced, same, same_body]⟩
  by_cases iterable : (!e.maybeIterable) = true
  · rw [if_pos iterable]
    exact .of_fails fails_refused.bind
  · rw [if_neg iterable, if_neg iterable]
    refine Follows.enclosed ?_
    cases counter with
    | none => exact looped
    | some counter =>
      refine Follows.bind Follows.bind_variable ?_
      rintro _ _ _ rfl
      exact looped

theorem follows_attempt (ih : Following c extra fuel) {k : String} {ts : List Token}
    (around : Roomier a a') (here : Stands w depths) (begins : w.tokens = .word k :: ts) :
    Follows c (attempt (fuel + 1) a) (attempt (extra + fuel + 1) a') w (Kept depths SameStmt) := by
  rw [attempt, attempt]
  refine Follows.bind (Follows.take_cons begins) ?_
  rintro w₁ p p' ⟨took, -, -⟩
  refine Follows.bind (ih.block around (here.took took rfl).opens) ?_
  rintro w₂ body body' ⟨here, same⟩
  refine Follows.bind (Follows.expect (by simp)) ?_
  rintro w₃ _ _ took
  have here := here.took took rfl
  have handled (name : Option String) {w : Ahead} (here : Stands w depths) :
      Follows c (block fuel a >>= fun handler => Pure.pure (.attempt body name handler p.pos))
        (block (extra + fuel) a' >>= fun handler =>
          Pure.pure (.attempt body' name handler p'.pos)) w
        (Kept depths SameStmt) := by
    refine Follows.bind (ih.block around here.opens) ?_
    rintro w₅ handler handler' ⟨here, same_handler⟩
    exact Follows.pure ⟨here, by rw [SameStmt, Stmt.unplaced, Stmt.unplaced, same, same_handler]⟩
  refine Follows.bind (Follows.accept (by simp) (by simp)) ?_
  rintro w₄ _ found ⟨rfl, ⟨rfl, took⟩ | ⟨rfl, rfl, -⟩⟩
  · refine Follows.bind Follows.variableName ?_
    rintro w₅ ⟨name, q⟩ ⟨_, q'⟩ ⟨rfl, n, took₁⟩
    refine Follows.bind (Follows.expect (by simp)) ?_
    rintro w₆ _ _ took₂
    have here := ((here.took took rfl).took took₁ rfl).took took₂ rfl
    refine Follows.enclosed (Follows.bind Follows.bind_variable ?_)
    rintro _ _ _ rfl
    exact handled (some name) here
  · exact handled none here

/-! ## Selections -/

theorem follows_selection (ih : Following c extra fuel) {k : String} {ts : List Token}
    (around : Roomier a a') (here : Stands w depths)
    (begins : w.tokens = .word k :: ts) :
    Follows c (selection (fuel + 1) a) (selection (extra + fuel + 1) a')
      w (Kept depths SameStmt) := by
  rw [selection, selection]
  refine Follows.bind (Follows.take_cons begins) ?_
  rintro w₁ p p' ⟨took, -, -⟩
  refine Follows.bind (ih.expression around.inner (here.took took rfl)) ?_
  rintro w₂ e e' ⟨here, same⟩
  refine Follows.bind (Follows.expect (by simp)) ?_
  rintro w₃ _ _ took
  refine Follows.bind (ih.cases around (here.opens _ took) rfl rfl) ?_
  rintro w₄ cs cs' ⟨here, same_cases⟩
  exact Follows.pure ⟨here, by rw [SameStmt, Stmt.unplaced, Stmt.unplaced, same, same_cases]⟩

theorem follows_patterns {es es' : List Expr} (same : SameExprs es es') :
    Follows c (es.mapM pattern) (es'.mapM pattern) w (fun w' vs vs' => w' = w ∧ vs = vs') := by
  induction es generalizing es' with
  | nil =>
    cases es' with
    | nil => exact Follows.pure ⟨rfl, rfl⟩
    | cons e' rest' => simp [SameExprs, unplacedExprs] at same
  | cons e rest ih =>
    cases es' with
    | nil => simp [SameExprs, unplacedExprs] at same
    | cons e' rest' =>
      obtain ⟨first, others⟩ := List.cons.inj same
      have one : Follows c (pattern e) (pattern e') w (fun w' v v' => w' = w ∧ v = v') := by
        unfold pattern
        rw [← SameExpr.literal? first]
        split
        · exact Follows.pure ⟨rfl, rfl⟩
        · exact .of_fails fails_fail
      rw [List.mapM_cons, List.mapM_cons]
      refine Follows.bind one ?_
      rintro _ v _ ⟨rfl, rfl⟩
      refine Follows.bind (ih others) ?_
      rintro _ vs _ ⟨rfl, rfl⟩
      exact Follows.pure ⟨rfl, rfl⟩

/-- The rest of a case behind its patterns and their condition, and the cases behind it. -/
def caseBehind (fuel : Nat) (a : Around) (last : Option Pos) (acc : List Case)
    (patterns : List Expr) (guard : Expr) : Reader (List Case) := do
  let _ ← Reader.expect (.sign "=>") "in this switch case"
  let body ← statement fuel a.inner
  let acc := Case.mk (← patterns.mapM pattern) guard body :: acc
  let q ← Reader.peek
  if q.token = .sign "," then
    let _ ← Reader.take
    cases fuel a last acc
  else if q.token = .sign "\x7d" || (body.endsItself && q.token ≠ .ended) then
    cases fuel a last acc
  else Reader.refuse (Reader.missing "," "to separate the items in this switch block") q

theorem follows_caseBehind (ih : Following c extra fuel) {last last' : Option Pos}
    {acc acc' : List Case} {patterns patterns' : List Expr} {guard guard' : Expr}
    (around : Roomier a a') (here : Encloses w depths) (default : last.isSome = last'.isSome)
    (same : SameCases acc acc') (same_patterns : SameExprs patterns patterns')
    (same_guard : SameExpr guard guard') :
    Follows c (caseBehind fuel a last acc patterns guard)
      (caseBehind (extra + fuel) a' last' acc' patterns' guard') w (Kept depths SameCases) := by
  refine Follows.bind (Follows.expect (by simp)) ?_
  rintro w₁ _ _ took
  have here := here.took took rfl
  have filled := took.filled (by simp [openers])
  refine Follows.bind (ih.statement around.inner here.stands filled) ?_
  rintro w₂ body body' ⟨kept, same_body⟩
  have here := here.kept kept
  refine Follows.bind (follows_patterns same_patterns) ?_
  rintro w₂ vs _ ⟨rfl, rfl⟩
  have same := same.cons vs same_guard same_body
  cases hw : w₂.tokens with
  | nil =>
    refine Follows.bind (Follows.peek_nil hw) ?_
    rintro _ q q' ⟨rfl, hq, -⟩
    simp only [hq, reduceCtorEq, if_false, ne_eq, not_true_eq_false, decide_false, Bool.and_false,
      Bool.or_false, Bool.false_eq_true]
    exact .of_fails fails_refuse
  | cons t ts =>
    refine Follows.bind (Follows.peek_cons hw) ?_
    rintro _ q q' ⟨rfl, hq, hq'⟩
    simp only [hq, hq', ← same_body.endsItself]
    split
    · rename_i comma
      refine Follows.bind (Follows.take_cons hw) ?_
      rintro w₃ _ _ ⟨took, -, -⟩
      exact ih.cases around (here.took took (by rw [comma]; rfl)) default same
    · split
      · exact ih.cases around here default same
      · exact .of_fails fails_refuse

theorem follows_cases (ih : Following c extra fuel) {last last' : Option Pos} {acc acc' : List Case}
    (around : Roomier a a') (here : Encloses w depths)
    (default : last.isSome = last'.isSome) (same : SameCases acc acc') :
    Follows c (cases (fuel + 1) a last acc) (cases (extra + fuel + 1) a' last' acc') w
      (Kept depths SameCases) := by
  rw [cases, cases]
  cases hw : w.tokens with
  | nil =>
    refine Follows.bind (Follows.peek_nil hw) ?_
    rintro _ p p' ⟨rfl, hp, -⟩
    simp only [hp, reduceCtorEq, if_false, if_true]
    exact .of_fails fails_fail
  | cons t ts =>
    refine Follows.bind (Follows.peek_cons hw) ?_
    rintro _ p p' ⟨rfl, hp, hp'⟩
    simp only [hp, hp']
    split
    · rename_i closing
      refine Follows.bind (Follows.take_cons hw) ?_
      rintro w₁ _ _ ⟨took, -, -⟩
      exact Follows.pure ⟨here.closed (closing ▸ took), same.reverse⟩
    · split
      · exact .of_fails fails_fail
      · cases last with
        | some q => exact .of_fails fails_fail
        | none =>
          obtain rfl : last' = none := by simpa using default.symm
          have unguarded : SameExpr (.const (.bool true) p.pos) (.const (.bool true) p'.pos) := rfl
          have none : SameExprs [] [] := rfl
          by_cases other : t = .sign "_"
          · simp only [other, if_true]
            refine Follows.bind (Follows.take_cons hw) ?_
            rintro w₁ _ _ ⟨took, -, -⟩
            have here := here.took took (by rw [other]; rfl)
            cases hw₁ : w₁.tokens with
            | nil =>
              refine Follows.bind (Follows.peek_nil hw₁) ?_
              rintro _ q q' ⟨rfl, hq, hq'⟩
              simp only [hq, hq', reduceCtorEq, if_false]
              exact follows_caseBehind ih around here rfl same none unguarded
            | cons u us =>
              refine Follows.bind (Follows.peek_cons hw₁) ?_
              rintro _ q q' ⟨rfl, hq, hq'⟩
              simp only [hq, hq']
              by_cases condition : u = .word "if"
              · rw [if_pos condition]
                exact .of_fails fails_fail.bind
              · rw [if_neg condition, if_neg condition]
                exact follows_caseBehind ih around here rfl same none unguarded
          · simp only [other, if_false]
            refine Follows.bind (ih.patternList around.pattern here.stands rfl) ?_
            rintro w₁ patterns patterns' ⟨kept, same_patterns⟩
            have here := here.kept kept
            refine Follows.bind (Follows.accept (by simp) (by simp)) ?_
            rintro w₂ _ found ⟨rfl, ⟨rfl, took⟩ | ⟨rfl, rfl, -⟩⟩
            · have here := here.took took rfl
              refine Follows.bind (ih.condition around here.stands) ?_
              rintro w₃ guard guard' ⟨kept, same_guard⟩
              exact follows_caseBehind ih around (here.kept kept) rfl same same_patterns same_guard
            · exact follows_caseBehind ih around here rfl same same_patterns unguarded

theorem follows_patternList (ih : Following c extra fuel) {acc acc' : List Expr}
    (around : Roomier a a') (here : Stands w depths) (same : SameExprs acc acc') :
    Follows c (patternList (fuel + 1) a acc) (patternList (extra + fuel + 1) a' acc') w
      (Kept depths SameExprs) := by
  rw [patternList, patternList]
  refine Follows.bind (ih.expression around.inner here) ?_
  rintro w₁ e e' ⟨here, same_expr⟩
  refine Follows.bind (Follows.accept (by simp) (by simp)) ?_
  rintro w₂ _ found ⟨rfl, ⟨rfl, took⟩ | ⟨rfl, rfl, -⟩⟩
  · exact ih.patternList around (here.took took rfl) (same.cons same_expr)
  · exact Follows.pure ⟨here, (same.cons same_expr).reverse⟩

end

end Parser

end Stencil.Script
