import Stencil.Script.Simplify

/-!
# Moved trees

A tree keeps its shape when its places are moved.  What is decided about a tree depends on its shape
alone, so that a tree may be moved before it is simplified or after it.
-/

namespace Stencil.Script

/-! ## Moving the places -/

mutual

/-- An expression with `move` applied to every place in it. -/
def Expr.moved (move : Pos → Pos) : Expr → Expr
  | .const v p => .const v (move p)
  | .interpolated parts p => .interpolated (movedExprs move parts) (move p)
  | .array items p => .array (movedExprs move items) (move p)
  | .map fields p => .map (movedFields move fields) (move p)
  | .variable name p => .variable name (move p)
  | .this p => .this (move p)
  | .call name args p => .call name (movedExprs move args) (move p)
  | .operator name args p => .operator name (movedExprs move args) (move p)
  | .both left right p => .both (left.moved move) (right.moved move) (move p)
  | .either left right p => .either (left.moved move) (right.moved move) (move p)
  | .coalesce left right p => .coalesce (left.moved move) (right.moved move) (move p)
  | .chain root steps => .chain (root.moved move) (movedSteps move steps)
  | .statement s => .statement (s.moved move)
  | .closure function captures p =>
    .closure function (captures.map fun c => (c.1, move c.2)) (move p)

def Field.moved (move : Pos → Pos) : Field → Field
  | .mk name e => .mk name (e.moved move)

def Step.moved (move : Pos → Pos) : Step → Step
  | .property name p optional => .property name (move p) optional
  | .method name args p optional => .method name (movedExprs move args) (move p) optional
  | .index e p optional => .index (e.moved move) (move p) optional

def Stmt.moved (move : Pos → Pos) : Stmt → Stmt
  | .skip p => .skip (move p)
  | .expr e => .expr (e.moved move)
  | .declare name value constant p => .declare name (value.moved move) constant (move p)
  | .assign op target value p => .assign op (target.moved move) (value.moved move) (move p)
  | .block body p => .block (movedStmts move body) (move p)
  | .branch c yes no p => .branch (c.moved move) (yes.moved move) (no.moved move) (move p)
  | .select subject cases p => .select (subject.moved move) (movedCases move cases) (move p)
  | .loop body p => .loop (body.moved move) (move p)
  | .repeatWhile c body p => .repeatWhile (c.moved move) (body.moved move) (move p)
  | .repeatAfter body c wanted p =>
    .repeatAfter (body.moved move) (c.moved move) wanted (move p)
  | .each name counter subject body p =>
    .each name counter (subject.moved move) (body.moved move) (move p)
  | .attempt body name handler p =>
    .attempt (body.moved move) name (handler.moved move) (move p)
  | .ret value p => .ret (movedOption move value) (move p)
  | .throw value p => .throw (movedOption move value) (move p)
  | .leave value p => .leave (movedOption move value) (move p)
  | .next p => .next (move p)
  | .load path p => .load (path.moved move) (move p)

def Case.moved (move : Pos → Pos) : Case → Case
  | .mk patterns guard body => .mk patterns (guard.moved move) (body.moved move)

def movedOption (move : Pos → Pos) : Option Expr → Option Expr
  | none => none
  | some e => some (e.moved move)

def movedExprs (move : Pos → Pos) : List Expr → List Expr
  | [] => []
  | e :: rest => e.moved move :: movedExprs move rest

def movedFields (move : Pos → Pos) : List Field → List Field
  | [] => []
  | f :: rest => f.moved move :: movedFields move rest

def movedSteps (move : Pos → Pos) : List Step → List Step
  | [] => []
  | s :: rest => s.moved move :: movedSteps move rest

def movedStmts (move : Pos → Pos) : List Stmt → List Stmt
  | [] => []
  | s :: rest => s.moved move :: movedStmts move rest

def movedCases (move : Pos → Pos) : List Case → List Case
  | [] => []
  | c :: rest => c.moved move :: movedCases move rest

end

variable (move : Pos → Pos)

@[simp]
theorem movedOption_eq_map (e : Option Expr) : movedOption move e = e.map (·.moved move) := by
  cases e <;> rfl

@[simp]
theorem movedExprs_eq_map (es : List Expr) : movedExprs move es = es.map (·.moved move) := by
  induction es with
  | nil => rfl
  | cons e rest ih => rw [movedExprs, ih, List.map_cons]

@[simp]
theorem movedFields_eq_map (fs : List Field) : movedFields move fs = fs.map (·.moved move) := by
  induction fs with
  | nil => rfl
  | cons f rest ih => rw [movedFields, ih, List.map_cons]

@[simp]
theorem movedSteps_eq_map (ss : List Step) : movedSteps move ss = ss.map (·.moved move) := by
  induction ss with
  | nil => rfl
  | cons s rest ih => rw [movedSteps, ih, List.map_cons]

@[simp]
theorem movedStmts_eq_map (ss : List Stmt) : movedStmts move ss = ss.map (·.moved move) := by
  induction ss with
  | nil => rfl
  | cons s rest ih => rw [movedStmts, ih, List.map_cons]

@[simp]
theorem movedCases_eq_map (cs : List Case) : movedCases move cs = cs.map (·.moved move) := by
  induction cs with
  | nil => rfl
  | cons c rest ih => rw [movedCases, ih, List.map_cons]

mutual

theorem Expr.pos_moved : ∀ e : Expr, (e.moved move).pos = move e.pos
  | .const .. | .interpolated .. | .array .. | .map .. | .variable .. | .this .. | .call ..
  | .operator .. | .closure .. => rfl
  | .both l _ _ | .either l _ _ | .coalesce l _ _ => Expr.pos_moved l
  | .chain root _ => Expr.pos_moved root
  | .statement s => Stmt.pos_moved s

theorem Stmt.pos_moved : ∀ s : Stmt, (s.moved move).pos = move s.pos
  | .skip .. | .declare .. | .assign .. | .block .. | .branch .. | .select .. | .loop ..
  | .repeatWhile .. | .repeatAfter .. | .each .. | .attempt .. | .ret .. | .throw .. | .leave ..
  | .next .. | .load .. => rfl
  | .expr e => Expr.pos_moved e

end

def Function.moved (f : Function) : Function := { f with body := f.body.moved move }

def Program.moved (program : Program) : Program where
  functions := program.functions.map (·.moved move)
  body := program.body.map (·.moved move)

/-! ## Moving and simplifying -/

namespace Simplify

mutual

theorem pureExpr_moved : ∀ e : Expr, pureExpr (e.moved move) = pureExpr e
  | .const .. | .variable .. | .this .. | .call .. | .operator .. | .chain .. | .closure .. => rfl
  | .interpolated parts _ | .array parts _ => pureExprs_moved parts
  | .map fields _ => pureFields_moved fields
  | .both l r p => by simp only [Expr.moved, pureExpr, pureExpr_moved l, pureExpr_moved r]
  | .either l r p => by simp only [Expr.moved, pureExpr, pureExpr_moved l, pureExpr_moved r]
  | .coalesce l r p => by simp only [Expr.moved, pureExpr, pureExpr_moved l, pureExpr_moved r]
  | .statement s => pureStmt_moved s

theorem pureExprs_moved : ∀ es : List Expr, pureExprs (movedExprs move es) = pureExprs es
  | [] => rfl
  | e :: rest => by simp only [movedExprs, pureExprs, pureExpr_moved e, pureExprs_moved rest]

theorem pureFields_moved : ∀ fs : List Field, pureFields (movedFields move fs) = pureFields fs
  | [] => rfl
  | .mk n e :: rest => by
    simp only [movedFields, Field.moved, pureFields, pureExpr_moved e, pureFields_moved rest]

theorem pureStmt_moved : ∀ s : Stmt, pureStmt (s.moved move) = pureStmt s
  | .skip .. | .declare .. | .assign .. | .select .. | .loop .. | .repeatWhile ..
  | .repeatAfter .. | .each .. | .ret .. | .throw .. | .leave .. | .next .. | .load .. => rfl
  | .expr e => pureExpr_moved e
  | .block body _ => pureStmts_moved body
  | .branch c yes no p => by
    simp only [Stmt.moved, pureStmt, pureExpr_moved c, pureStmt_moved yes, pureStmt_moved no]
  | .attempt body n h p => by
    simp only [Stmt.moved, pureStmt, pureStmt_moved body, pureStmt_moved h]

theorem pureStmts_moved : ∀ ss : List Stmt, pureStmts (movedStmts move ss) = pureStmts ss
  | [] => rfl
  | s :: rest => by simp only [movedStmts, pureStmts, pureStmt_moved s, pureStmts_moved rest]

end

theorem isEmpty_moved (s : Stmt) : isEmpty (s.moved move) = isEmpty s := by
  cases s with
  | block body p => cases body <;> rfl
  | _ => rfl

theorem prune_moved (keep : Bool) (ss : List Stmt) :
    prune keep (movedStmts move ss) = movedStmts move (prune keep ss) := by
  induction ss with
  | nil => rfl
  | cons s rest ih =>
    cases rest with
    | nil =>
      simp only [movedStmts, prune, pureStmt_moved]
      split <;> rfl
    | cons t more =>
      simp only [movedStmts, prune, pureStmt_moved] at ih ⊢
      split
      · exact ih
      · rw [movedStmts, ih]

theorem fold_moved (op : String) (args : List Expr) (p : Pos) :
    fold op (movedExprs move args) (move p) = (fold op args p).moved move := by
  rcases args with _ | ⟨a, _ | ⟨b, _ | ⟨c, rest⟩⟩⟩
  · rfl
  · cases a <;> rfl
  · cases a with
    | const v q =>
      cases b with
      | const w u =>
        simp only [movedExprs, Expr.moved, fold]
        split <;> rfl
      | _ => rfl
    | _ => rfl
  · cases a with
    | const v q => cases b <;> rfl
    | _ => rfl

theorem fieldValue?_moved (name : String) (fs : List Field) :
    fieldValue? name (movedFields move fs) = (fieldValue? name fs).map (·.moved move) := by
  induction fs with
  | nil => rfl
  | cons f rest ih =>
    obtain ⟨n, e⟩ := f
    simp only [movedFields, Field.moved, fieldValue?, ih]
    split <;> rfl

theorem pick_cons_cons (root : Expr) (s t : Step) (rest : List Step) :
    pick root (s :: t :: rest) = .chain root (s :: t :: rest) := by
  rw [pick.eq_def]
  split <;> simp_all

theorem pick_moved (root : Expr) (ss : List Step) :
    pick (root.moved move) (movedSteps move ss) = (pick root ss).moved move := by
  rcases ss with _ | ⟨s, _ | ⟨t, rest⟩⟩
  · cases root <;> rfl
  · cases root with
    | map fields p =>
      have value (name : String) : ((fieldValue? name (movedFields move fields)).getD
          (.const .unit (move p))) =
          ((fieldValue? name fields).getD (.const .unit p)).moved move := by
        rw [fieldValue?_moved]
        cases fieldValue? name fields <;> rfl
      cases s with
      | property name q optional =>
        simp only [Expr.moved, movedSteps, Step.moved, pick, pureFields_moved, value]
        split <;> rfl
      | method name args q optional => rfl
      | index e q optional =>
        cases e with
        | const v u =>
          cases v with
          | string name =>
            simp only [Expr.moved, movedSteps, Step.moved, pick, pureFields_moved, value]
            split <;> rfl
          | _ => rfl
        | _ => rfl
    | array items p =>
      cases s with
      | index e q optional =>
        cases e with
        | const v u =>
          cases v with
          | int i =>
            simp only [Expr.moved, movedSteps, Step.moved, pick, pureExprs_moved]
            simp only [movedExprs_eq_map, List.length_map, List.getElem?_map]
            generalize (if i < 0 then (items.length : Int) + i else i) = place
            split
            · cases items[place.toNat]? <;> simp [Expr.moved, Step.moved]
            · simp [Expr.moved, Step.moved]
          | _ => rfl
        | _ => rfl
      | property name q optional => rfl
      | method name args q optional => rfl
    | _ => rfl
  · rw [pick_cons_cons, movedSteps, movedSteps, pick_cons_cons]
    rfl

theorem branch_moved (keep : Bool) (c : Expr) (yes no : Stmt) (p : Pos) :
    branch keep (c.moved move) (yes.moved move) (no.moved move) (move p) =
      (branch keep c yes no p).moved move := by
  simp only [branch, isEmpty_moved]
  split
  · split <;> rfl
  · rfl

theorem assign_eq_or (op : Option String) (target value : Expr) (p : Pos) :
    assign op target value p = .assign op target value p ∨
      ∃ name q o u e x, op = none ∧ target = .variable name q ∧
        value = .operator o [.variable name u, e] x ∧ combinable.contains o = true ∧
        assign op target value p = .assign (some o) target e x := by
  rw [assign.eq_def]
  split
  · rename_i name q o name' u e x
    split
    · rename_i h
      obtain ⟨rfl, hc⟩ : name = name' ∧ combinable.contains o = true := by simpa using h
      exact .inr ⟨name, q, o, u, e, x, rfl, rfl, rfl, hc, rfl⟩
    · exact .inl rfl
  · exact .inl rfl

theorem assign_moved (op : Option String) (target value : Expr) (p : Pos) :
    assign op (target.moved move) (value.moved move) (move p) =
      (assign op target value p).moved move := by
  rcases op with _ | o
  · cases target with
    | «variable» name q =>
      cases value with
      | operator o args u =>
        rcases args with _ | ⟨a, _ | ⟨e, _ | ⟨b, rest⟩⟩⟩
        · rfl
        · cases a <;> rfl
        · cases a with
          | «variable» name' x =>
            simp only [Expr.moved, movedExprs, assign]
            split <;> rfl
          | _ => rfl
        · cases a <;> rfl
      | _ => rfl
    | _ => rfl
  · cases target <;> rfl

mutual

theorem expr_moved : ∀ e : Expr, expr (e.moved move) = (expr e).moved move
  | .const .. | .variable .. | .this .. | .closure .. => rfl
  | .interpolated parts p => by simp only [Expr.moved, expr, exprs_moved parts]
  | .array items p => by simp only [Expr.moved, expr, exprs_moved items]
  | .map fs p => by simp only [Expr.moved, expr, fields_moved fs]
  | .call n args p => by simp only [Expr.moved, expr, exprs_moved args]
  | .operator op args p => by simp only [Expr.moved, expr, exprs_moved args, fold_moved]
  | .both l r p => by
    simp only [Expr.moved, expr, expr_moved l, expr_moved r]
    generalize expr l = left
    generalize expr r = right
    cases left with
    | const v q =>
      cases v with
      | bool b => cases b <;> rfl
      | _ =>
        cases right with
        | const w u =>
          cases w with
          | bool b => cases b <;> rfl
          | _ => rfl
        | _ => rfl
    | _ =>
      cases right with
      | const w u =>
        cases w with
        | bool b => cases b <;> rfl
        | _ => rfl
      | _ => rfl
  | .either l r p => by
    simp only [Expr.moved, expr, expr_moved l, expr_moved r]
    generalize expr l = left
    generalize expr r = right
    cases left with
    | const v q =>
      cases v with
      | bool b => cases b <;> rfl
      | _ =>
        cases right with
        | const w u =>
          cases w with
          | bool b => cases b <;> rfl
          | _ => rfl
        | _ => rfl
    | _ =>
      cases right with
      | const w u =>
        cases w with
        | bool b => cases b <;> rfl
        | _ => rfl
      | _ => rfl
  | .coalesce l r p => by
    simp only [Expr.moved, expr, expr_moved l, expr_moved r]
    cases expr l with
    | const v q => cases v <;> rfl
    | _ => rfl
  | .chain root ss => by simp only [Expr.moved, expr, expr_moved root, steps_moved ss, pick_moved]
  | .statement s => by simp only [Expr.moved, expr, stmt_moved true s]

theorem exprs_moved : ∀ es : List Expr, exprs (movedExprs move es) = movedExprs move (exprs es)
  | [] => rfl
  | e :: rest => by simp only [movedExprs, exprs, expr_moved e, exprs_moved rest]

theorem fields_moved : ∀ fs : List Field,
    fields (movedFields move fs) = movedFields move (fields fs)
  | [] => rfl
  | .mk n e :: rest => by
    simp only [movedFields, Field.moved, fields, expr_moved e, fields_moved rest]

theorem steps_moved : ∀ ss : List Step, steps (movedSteps move ss) = movedSteps move (steps ss)
  | [] => rfl
  | .property n p o :: rest => by simp only [movedSteps, Step.moved, steps, steps_moved rest]
  | .method n args p o :: rest => by
    simp only [movedSteps, Step.moved, steps, exprs_moved args, steps_moved rest]
  | .index e p o :: rest => by
    simp only [movedSteps, Step.moved, steps, expr_moved e, steps_moved rest]

theorem option_moved : ∀ e : Option Expr,
    option (movedOption move e) = movedOption move (option e)
  | none => rfl
  | some e => by simp only [movedOption, option, expr_moved e]

theorem stmt_moved (keep : Bool) : ∀ s : Stmt, stmt keep (s.moved move) = (stmt keep s).moved move
  | .skip p | .next p => rfl
  | .expr e => by simp only [Stmt.moved, stmt, expr_moved e]
  | .declare n v c p => by simp only [Stmt.moved, stmt, expr_moved v]
  | .assign op t v p => by simp only [Stmt.moved, stmt, expr_moved t, expr_moved v, assign_moved]
  | .block body p => by simp only [Stmt.moved, stmt, stmts_moved keep body, prune_moved]
  | .branch c yes no p => by
    simp only [Stmt.moved, stmt, expr_moved c, stmt_moved keep yes, stmt_moved keep no, branch_moved]
  | .select s cs p => by simp only [Stmt.moved, stmt, expr_moved s, cases_moved cs]
  | .loop body p => by simp only [Stmt.moved, stmt, stmt_moved false body]
  | .repeatWhile c body p => by simp only [Stmt.moved, stmt, expr_moved c, stmt_moved false body]
  | .repeatAfter body c w p => by simp only [Stmt.moved, stmt, expr_moved c, stmt_moved false body]
  | .each n i s body p => by simp only [Stmt.moved, stmt, expr_moved s, stmt_moved false body]
  | .attempt body n h p => by
    simp only [Stmt.moved, stmt, stmt_moved false body, stmt_moved false h, pureStmt_moved]
    split <;> rfl
  | .ret v p => by simp only [Stmt.moved, stmt, option_moved v]
  | .throw v p => by simp only [Stmt.moved, stmt, option_moved v]
  | .leave v p => by simp only [Stmt.moved, stmt, option_moved v]
  | .load e p => by simp only [Stmt.moved, stmt, expr_moved e]

theorem stmts_moved (keep : Bool) : ∀ ss : List Stmt,
    stmts keep (movedStmts move ss) = movedStmts move (stmts keep ss)
  | [] => rfl
  | s :: rest => by simp only [movedStmts, stmts, stmt_moved keep s, stmts_moved keep rest]

theorem cases_moved : ∀ cs : List Case, cases (movedCases move cs) = movedCases move (cases cs)
  | [] => rfl
  | .mk vs g body :: rest => by
    simp only [movedCases, Case.moved, cases, expr_moved g, stmt_moved true body, cases_moved rest]

end

end Simplify

end Stencil.Script
