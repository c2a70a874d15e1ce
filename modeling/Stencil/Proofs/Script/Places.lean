import Stencil.Script.Parser

/-!
# Trees without places

What a reader of tokens decides about an expression or a statement that it has read depends neither
on the places in it nor on the names of its closures.  Trees are compared without both.
-/

namespace Stencil.Script

/-! ## Forgetting the places -/

mutual

/-- An expression with all places at the start of the script and without its closures. -/
def Expr.unplaced : Expr → Expr
  | .const v _ => .const v Pos.start
  | .interpolated parts _ => .interpolated (unplacedExprs parts) Pos.start
  | .array items _ => .array (unplacedExprs items) Pos.start
  | .map fields _ => .map (unplacedFields fields) Pos.start
  | .variable name _ => .variable name Pos.start
  | .this _ => .this Pos.start
  | .call name args _ => .call name (unplacedExprs args) Pos.start
  | .operator name args _ => .operator name (unplacedExprs args) Pos.start
  | .both left right _ => .both left.unplaced right.unplaced Pos.start
  | .either left right _ => .either left.unplaced right.unplaced Pos.start
  | .coalesce left right _ => .coalesce left.unplaced right.unplaced Pos.start
  | .chain root steps => .chain root.unplaced (unplacedSteps steps)
  | .statement s => .statement s.unplaced
  | .closure _ _ _ => .closure "" [] Pos.start

def Field.unplaced : Field → Field
  | .mk name e => .mk name e.unplaced

def Step.unplaced : Step → Step
  | .property name _ optional => .property name Pos.start optional
  | .method name args _ optional => .method name (unplacedExprs args) Pos.start optional
  | .index e _ optional => .index e.unplaced Pos.start optional

def Stmt.unplaced : Stmt → Stmt
  | .skip _ => .skip Pos.start
  | .expr e => .expr e.unplaced
  | .declare name value constant _ => .declare name value.unplaced constant Pos.start
  | .assign op target value _ => .assign op target.unplaced value.unplaced Pos.start
  | .block body _ => .block (unplacedStmts body) Pos.start
  | .branch c yes no _ => .branch c.unplaced yes.unplaced no.unplaced Pos.start
  | .select subject cases _ => .select subject.unplaced (unplacedCases cases) Pos.start
  | .loop body _ => .loop body.unplaced Pos.start
  | .repeatWhile c body _ => .repeatWhile c.unplaced body.unplaced Pos.start
  | .repeatAfter body c wanted _ => .repeatAfter body.unplaced c.unplaced wanted Pos.start
  | .each name counter subject body _ =>
    .each name counter subject.unplaced body.unplaced Pos.start
  | .attempt body name handler _ => .attempt body.unplaced name handler.unplaced Pos.start
  | .ret value _ => .ret (unplacedOption value) Pos.start
  | .throw value _ => .throw (unplacedOption value) Pos.start
  | .leave value _ => .leave (unplacedOption value) Pos.start
  | .next _ => .next Pos.start
  | .load path _ => .load path.unplaced Pos.start

def Case.unplaced : Case → Case
  | .mk patterns guard body => .mk patterns guard.unplaced body.unplaced

def unplacedOption : Option Expr → Option Expr
  | none => none
  | some e => some e.unplaced

def unplacedExprs : List Expr → List Expr
  | [] => []
  | e :: rest => e.unplaced :: unplacedExprs rest

def unplacedFields : List Field → List Field
  | [] => []
  | f :: rest => f.unplaced :: unplacedFields rest

def unplacedSteps : List Step → List Step
  | [] => []
  | s :: rest => s.unplaced :: unplacedSteps rest

def unplacedStmts : List Stmt → List Stmt
  | [] => []
  | s :: rest => s.unplaced :: unplacedStmts rest

def unplacedCases : List Case → List Case
  | [] => []
  | c :: rest => c.unplaced :: unplacedCases rest

end

@[simp]
theorem unplacedOption_eq_map (e : Option Expr) : unplacedOption e = e.map Expr.unplaced := by
  cases e <;> rfl

@[simp]
theorem unplacedExprs_eq_map (es : List Expr) : unplacedExprs es = es.map Expr.unplaced := by
  induction es with
  | nil => rfl
  | cons e rest ih => rw [unplacedExprs, ih, List.map_cons]

@[simp]
theorem unplacedFields_eq_map (fs : List Field) : unplacedFields fs = fs.map Field.unplaced := by
  induction fs with
  | nil => rfl
  | cons f rest ih => rw [unplacedFields, ih, List.map_cons]

@[simp]
theorem unplacedSteps_eq_map (ss : List Step) : unplacedSteps ss = ss.map Step.unplaced := by
  induction ss with
  | nil => rfl
  | cons s rest ih => rw [unplacedSteps, ih, List.map_cons]

@[simp]
theorem unplacedStmts_eq_map (ss : List Stmt) : unplacedStmts ss = ss.map Stmt.unplaced := by
  induction ss with
  | nil => rfl
  | cons s rest ih => rw [unplacedStmts, ih, List.map_cons]

@[simp]
theorem unplacedCases_eq_map (cs : List Case) : unplacedCases cs = cs.map Case.unplaced := by
  induction cs with
  | nil => rfl
  | cons c rest ih => rw [unplacedCases, ih, List.map_cons]

/-! ## Decisions of a reader -/

namespace Stmt

theorem isSkip_unplaced (s : Stmt) : s.unplaced.isSkip = s.isSkip := by
  cases s <;> rfl

theorem endsItself_unplaced (s : Stmt) : s.unplaced.endsItself = s.endsItself := by
  cases s <;> rfl

end Stmt

theorem assignable_unplaced (ss : List Step) :
    assignable (ss.map Step.unplaced) = assignable ss := by
  induction ss with
  | nil => rfl
  | cons s rest ih =>
    cases s with
    | method name args p optional => rfl
    | property name p optional => exact ih
    | index e p optional => exact ih

theorem any_name_unplaced (name : String) (fs : List Field) :
    ((fs.map Field.unplaced).any fun f => match f with | .mk m _ => m = name) =
      fs.any fun f => match f with | .mk m _ => m = name := by
  rw [List.any_map]
  congr 1
  funext f
  cases f
  rfl

namespace Expr

theorem maybeBool_unplaced (e : Expr) : e.unplaced.maybeBool = e.maybeBool := by
  cases e with
  | const v p => cases v <;> rfl
  | _ => rfl

theorem maybeIterable_unplaced (e : Expr) : e.unplaced.maybeIterable = e.maybeIterable := by
  cases e <;> rfl

theorem isNoIndex_unplaced (e : Expr) : e.unplaced.isNoIndex = e.isNoIndex := by
  cases e with
  | const v p => cases v <;> rfl
  | _ => rfl

theorem isText_unplaced (e : Expr) : e.unplaced.isText = e.isText := by
  cases e with
  | const v p => cases v <;> rfl
  | _ => rfl

theorem refusesIndex_unplaced (root index : Expr) :
    root.unplaced.refusesIndex index.unplaced = root.refusesIndex index := by
  cases root with
  | const v p =>
    cases v <;> simp only [unplaced, refusesIndex, isNoIndex_unplaced, isText_unplaced]
  | map fields p =>
    cases index with
    | const v q => cases v <;> rfl
    | _ => rfl
  | _ => simp only [unplaced, refusesIndex, isNoIndex_unplaced, isText_unplaced]

theorem addStep_unplaced (root : Expr) (opened : Bool) (step : Step) :
    (Parser.addStep root opened step).unplaced =
      Parser.addStep root.unplaced opened step.unplaced := by
  cases opened with
  | false => cases root <;> simp [Parser.addStep, unplaced]
  | true => cases root <;> simp [Parser.addStep, unplaced]

variable {e : Expr}

theorem variable_of_unplaced {name : String} {p : Pos} (h : e.unplaced = .variable name p) :
    ∃ q, e = .variable name q := by
  cases e <;> simp_all [unplaced]

theorem this_of_unplaced {p : Pos} (h : e.unplaced = .this p) : ∃ q, e = .this q := by
  cases e <;> simp_all [unplaced]

theorem chain_of_unplaced {root : Expr} {steps : List Step} (h : e.unplaced = .chain root steps) :
    ∃ r ss, e = .chain r ss ∧ r.unplaced = root ∧ ss.map Step.unplaced = steps := by
  cases e with
  | chain r ss =>
    simp only [unplaced, chain.injEq, unplacedSteps_eq_map] at h
    exact ⟨r, ss, rfl, h⟩
  | _ => simp [unplaced] at h

/-- A range between literals is one; nothing else about the operands of an operator is decided. -/
theorem literal?_operator_unplaced (op : String) (args : List Expr) (p q : Pos) :
    (operator op (args.map unplaced) p).literal? = (operator op args q).literal? := by
  rcases args with _ | ⟨a, _ | ⟨b, _ | ⟨c, rest⟩⟩⟩
  · rfl
  · simp [literal?]
  · cases a with
    | const v u =>
      cases v with
      | int i =>
        cases b with
        | const w u' => cases w <;> rfl
        | _ => rfl
      | _ => rfl
    | _ => rfl
  · simp [literal?]

end Expr

mutual

theorem Expr.literal?_unplaced : ∀ e : Expr, e.unplaced.literal? = e.literal?
  | .const v p => rfl
  | .array items p => by
    simp only [Expr.unplaced, Expr.literal?, literals?_unplaced items]
  | .map fields p => by
    simp only [Expr.unplaced, Expr.literal?, literalFields?_unplaced fields]
  | .operator op args p => by
    rw [Expr.unplaced, unplacedExprs_eq_map, Expr.literal?_operator_unplaced]
  | .interpolated .. | .variable .. | .this .. | .call .. | .both .. | .either .. | .coalesce ..
  | .chain .. | .statement .. | .closure .. => rfl

theorem literals?_unplaced : ∀ es : List Expr, literals? (unplacedExprs es) = literals? es
  | [] => rfl
  | e :: rest => by
    rw [unplacedExprs, literals?, literals?, e.literal?_unplaced, literals?_unplaced rest]

theorem literalFields?_unplaced : ∀ fs : List Field,
    literalFields? (unplacedFields fs) = literalFields? fs
  | [] => rfl
  | .mk name e :: rest => by
    rw [unplacedFields, Field.unplaced, literalFields?, literalFields?, e.literal?_unplaced,
      literalFields?_unplaced rest]

end

/-! ## Trees but for their places -/

def SameExpr (e e' : Expr) : Prop := e.unplaced = e'.unplaced

def SameExprs (es es' : List Expr) : Prop := unplacedExprs es = unplacedExprs es'

def SameOption (e e' : Option Expr) : Prop := unplacedOption e = unplacedOption e'

def SameFields (fs fs' : List Field) : Prop := unplacedFields fs = unplacedFields fs'

def SameStmt (s s' : Stmt) : Prop := s.unplaced = s'.unplaced

def SameStmts (ss ss' : List Stmt) : Prop := unplacedStmts ss = unplacedStmts ss'

def SameCases (cs cs' : List Case) : Prop := unplacedCases cs = unplacedCases cs'

section

variable {e e' : Expr} {es es' : List Expr} {fs fs' : List Field} {s s' : Stmt}
  {ss ss' : List Stmt} {cs cs' : List Case}

theorem SameExprs.cons (same : SameExpr e e') (rest : SameExprs es es') :
    SameExprs (e :: es) (e' :: es') := by
  rw [SameExprs, unplacedExprs, unplacedExprs, same, rest]

theorem SameExprs.reverse (same : SameExprs es es') : SameExprs es.reverse es'.reverse := by
  simp only [SameExprs, unplacedExprs_eq_map, List.map_reverse] at same ⊢
  rw [same]

theorem SameExprs.concat (rest : SameExprs es es') (same : SameExpr e e') :
    SameExprs (es ++ [e]) (es' ++ [e']) := by
  simp only [SameExprs, SameExpr, unplacedExprs_eq_map, List.map_append, List.map_singleton]
    at rest same ⊢
  rw [rest, same]

theorem SameExprs.isEmpty (same : SameExprs es es') : es.isEmpty = es'.isEmpty := by
  cases es <;> cases es' <;> simp_all [SameExprs, unplacedExprs]

theorem SameFields.cons (name : String) (same : SameExpr e e') (rest : SameFields fs fs') :
    SameFields (.mk name e :: fs) (.mk name e' :: fs') := by
  rw [SameFields, unplacedFields, unplacedFields, Field.unplaced, Field.unplaced, same, rest]

theorem SameFields.reverse (same : SameFields fs fs') : SameFields fs.reverse fs'.reverse := by
  simp only [SameFields, unplacedFields_eq_map, List.map_reverse] at same ⊢
  rw [same]

theorem SameFields.any (same : SameFields fs fs') (name : String) :
    (fs.any fun f => match f with | .mk m _ => m = name) =
      fs'.any fun f => match f with | .mk m _ => m = name := by
  simp only [SameFields, unplacedFields_eq_map] at same
  exact (any_name_unplaced name fs).symm.trans (same ▸ any_name_unplaced name fs')

theorem SameStmts.cons (same : SameStmt s s') (rest : SameStmts ss ss') :
    SameStmts (s :: ss) (s' :: ss') := by
  rw [SameStmts, unplacedStmts, unplacedStmts, same, rest]

theorem SameStmts.reverse (same : SameStmts ss ss') : SameStmts ss.reverse ss'.reverse := by
  simp only [SameStmts, unplacedStmts_eq_map, List.map_reverse] at same ⊢
  rw [same]

theorem SameCases.cons (patterns : List Value) (guard : SameExpr e e') (body : SameStmt s s')
    (rest : SameCases cs cs') :
    SameCases (.mk patterns e s :: cs) (.mk patterns e' s' :: cs') := by
  rw [SameCases, unplacedCases, unplacedCases, Case.unplaced, Case.unplaced, guard, body, rest]

theorem SameCases.reverse (same : SameCases cs cs') : SameCases cs.reverse cs'.reverse := by
  simp only [SameCases, unplacedCases_eq_map, List.map_reverse] at same ⊢
  rw [same]

theorem SameOption.some (same : SameExpr e e') : SameOption (some e) (some e') := by
  rw [SameOption, unplacedOption, unplacedOption, same]

theorem SameExpr.maybeBool (same : SameExpr e e') : e.maybeBool = e'.maybeBool := by
  rw [← Expr.maybeBool_unplaced, same, Expr.maybeBool_unplaced]

theorem SameExpr.maybeIterable (same : SameExpr e e') : e.maybeIterable = e'.maybeIterable := by
  rw [← Expr.maybeIterable_unplaced, same, Expr.maybeIterable_unplaced]

theorem SameExpr.isNoIndex (same : SameExpr e e') : e.isNoIndex = e'.isNoIndex := by
  rw [← Expr.isNoIndex_unplaced, same, Expr.isNoIndex_unplaced]

theorem SameExpr.refusesIndex (same : SameExpr e e') {i i' : Expr} (same_index : SameExpr i i') :
    e.refusesIndex i = e'.refusesIndex i' := by
  rw [← Expr.refusesIndex_unplaced, same, same_index, Expr.refusesIndex_unplaced]

theorem SameExpr.literal? (same : SameExpr e e') : e.literal? = e'.literal? := by
  rw [← Expr.literal?_unplaced, same, Expr.literal?_unplaced]

theorem SameExpr.addStep (same : SameExpr e e') {opened : Bool} {step step' : Step}
    (same_step : step.unplaced = step'.unplaced) :
    SameExpr (Parser.addStep e opened step) (Parser.addStep e' opened step') := by
  rw [SameExpr, Expr.addStep_unplaced, Expr.addStep_unplaced, same, same_step]

theorem SameStmt.isSkip (same : SameStmt s s') : s.isSkip = s'.isSkip := by
  rw [← Stmt.isSkip_unplaced, same, Stmt.isSkip_unplaced]

theorem SameStmt.endsItself (same : SameStmt s s') : s.endsItself = s'.endsItself := by
  rw [← Stmt.endsItself_unplaced, same, Stmt.endsItself_unplaced]

end

end Stencil.Script
