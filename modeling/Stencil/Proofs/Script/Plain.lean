import Stencil.Script.Evaluator
import Stencil.Proofs.Script.Outline
import Stencil.Proofs.Script.Places

/-!
# Plain expressions

A plain expression is built from literals and known variables with operators, properties and indexes.
If its variables are fields, it has a value that depends on them alone, or none.  The value depends on no
place, and simplification keeps it.
-/

namespace Stencil.Script

mutual

/-- Whether an expression is built from literals and known variables without calls. -/
def Expr.isPlain (known : String → Bool) : Expr → Bool
  | .const .. => true
  | .variable name _ => known name
  | .operator _ args _ => plainExprs known args
  | .chain root steps => root.isPlain known && plainSteps known steps
  | _ => false

def plainExprs (known : String → Bool) : List Expr → Bool
  | [] => true
  | e :: rest => e.isPlain known && plainExprs known rest

def plainSteps (known : String → Bool) : List Step → Bool
  | [] => true
  | .property _ _ _ :: rest => plainSteps known rest
  | .index e _ _ :: rest => e.isPlain known && plainSteps known rest
  | .method .. :: _ => false

end

/-! ## Values -/

/-- What a chain of properties and indexes leads to from a value; none if it faults. -/
def reach? : List Access → Value → Option Value
  | [], v => some v
  | .property name _ optional :: rest, v =>
    if optional && v matches .unit then some .unit
    else (v.readProperty name).toOption.bind (reach? rest)
  | .index i _ optional :: rest, v =>
    if optional && v matches .unit then some .unit
    else (v.readIndex i).toOption.bind (reach? rest)
  | .method .. :: _, _ => none

mutual

/-- The value of a plain expression, where names stand for fields; none if it faults. -/
def Expr.value? (names : Names) : Expr → Option Value
  | .const v _ => some v
  | .variable name _ => (names name).map Value.ofJson
  | .operator op args _ =>
    (values? names args).bind fun vs => (Operator.apply op vs).bind Except.toOption
  | .chain root steps =>
    (accesses? names steps).bind fun as => (root.value? names).bind (reach? as)
  | _ => none

def values? (names : Names) : List Expr → Option (List Value)
  | [] => some []
  | e :: rest => (e.value? names).bind fun v => (values? names rest).map (v :: ·)

/-- The steps of a chain with the values of their indexes. -/
def accesses? (names : Names) : List Step → Option (List Access)
  | [] => some []
  | .property name p optional :: rest =>
    (accesses? names rest).map (.property name p optional :: ·)
  | .index e _ optional :: rest =>
    (e.value? names).bind fun v => (accesses? names rest).map (.index v e.pos optional :: ·)
  | .method .. :: _ => none

end

variable {known : String → Bool} {names : Names} {e e' : Expr}

/-! ## Places -/

def Access.unplaced : Access → Access
  | .property name _ optional => .property name Pos.start optional
  | .method name args _ optional => .method name args Pos.start optional
  | .index i _ optional => .index i Pos.start optional

theorem reach?_unplaced (as : List Access) : reach? (as.map Access.unplaced) = reach? as := by
  induction as with
  | nil => rfl
  | cons a rest ih =>
    funext v
    cases a <;> simp only [List.map_cons, Access.unplaced, reach?, ih]

mutual

theorem Expr.isPlain_unplaced : ∀ e : Expr, e.unplaced.isPlain known = e.isPlain known
  | .const .. | .variable .. => rfl
  | .operator op args p => by
    rw [Expr.unplaced, Expr.isPlain, Expr.isPlain, plainExprs_unplaced args]
  | .chain root steps => by
    rw [Expr.unplaced, Expr.isPlain, Expr.isPlain, root.isPlain_unplaced,
      plainSteps_unplaced steps]
  | .interpolated .. | .array .. | .map .. | .this .. | .call .. | .both .. | .either ..
  | .coalesce .. | .statement .. | .closure .. => rfl

theorem plainExprs_unplaced :
    ∀ es : List Expr, plainExprs known (unplacedExprs es) = plainExprs known es
  | [] => rfl
  | e :: rest => by
    rw [unplacedExprs, plainExprs, plainExprs, e.isPlain_unplaced, plainExprs_unplaced rest]

theorem plainSteps_unplaced :
    ∀ ss : List Step, plainSteps known (unplacedSteps ss) = plainSteps known ss
  | [] => rfl
  | .property .. :: rest => plainSteps_unplaced rest
  | .index e p o :: rest => by
    rw [unplacedSteps, Step.unplaced, plainSteps, plainSteps, e.isPlain_unplaced,
      plainSteps_unplaced rest]
  | .method .. :: _ => rfl

end

/-- Chains have one value if their roots have and their steps, but for places. -/
theorem value?_chain_congr {root root' : Expr} {ss ss' : List Step}
    (roots : root.value? names = root'.value? names)
    (steps : (accesses? names ss).map (·.map Access.unplaced) =
      (accesses? names ss').map (·.map Access.unplaced)) :
    (Expr.chain root ss).value? names = (Expr.chain root' ss').value? names := by
  have reached (as : Option (List Access)) :
      as.bind (fun as => (root.value? names).bind (reach? as)) =
        (as.map (·.map Access.unplaced)).bind fun as => (root.value? names).bind (reach? as) := by
    cases as with
    | none => rfl
    | some as => simp only [Option.bind_some, Option.map_some, reach?_unplaced]
  rw [Expr.value?, Expr.value?, ← roots, reached, steps, ← reached]

theorem map_cons_congr {a a' : Access} {as as' : Option (List Access)}
    (first : a.unplaced = a'.unplaced)
    (rest : as.map (·.map Access.unplaced) = as'.map (·.map Access.unplaced)) :
    (as.map (a :: ·)).map (·.map Access.unplaced) =
      (as'.map (a' :: ·)).map (·.map Access.unplaced) := by
  have split (b : Access) (bs : Option (List Access)) :
      (bs.map (b :: ·)).map (·.map Access.unplaced) =
        (bs.map (·.map Access.unplaced)).map (b.unplaced :: ·) := by
    cases bs <;> rfl
  rw [split, split, rest, first]

/-- The index of a step may be another one with the same value. -/
theorem accesses?_index_congr {ss ss' : List Step} {p p' : Pos} {o : Bool}
    (index : e.value? names = e'.value? names)
    (rest : (accesses? names ss).map (·.map Access.unplaced) =
      (accesses? names ss').map (·.map Access.unplaced)) :
    (accesses? names (.index e p o :: ss)).map (·.map Access.unplaced) =
      (accesses? names (.index e' p' o :: ss')).map (·.map Access.unplaced) := by
  rw [accesses?, accesses?, ← index]
  cases e.value? names with
  | none => rfl
  | some v => exact map_cons_congr rfl rest

mutual

theorem Expr.value?_unplaced : ∀ e : Expr, e.unplaced.value? names = e.value? names
  | .const .. | .variable .. => rfl
  | .operator op args p => by
    rw [Expr.unplaced, Expr.value?, Expr.value?, values?_unplaced args]
  | .chain root ss => value?_chain_congr root.value?_unplaced (accesses?_unplaced ss)
  | .interpolated .. | .array .. | .map .. | .this .. | .call .. | .both .. | .either ..
  | .coalesce .. | .statement .. | .closure .. => rfl

theorem values?_unplaced : ∀ es : List Expr, values? names (unplacedExprs es) = values? names es
  | [] => rfl
  | e :: rest => by
    rw [unplacedExprs, values?, values?, e.value?_unplaced, values?_unplaced rest]

theorem accesses?_unplaced : ∀ ss : List Step,
    (accesses? names (unplacedSteps ss)).map (·.map Access.unplaced) =
      (accesses? names ss).map (·.map Access.unplaced)
  | [] => rfl
  | .property .. :: rest => map_cons_congr rfl (accesses?_unplaced rest)
  | .index e _ _ :: rest => accesses?_index_congr e.value?_unplaced (accesses?_unplaced rest)
  | .method .. :: _ => rfl

end

theorem SameExpr.isPlain (same : SameExpr e e') : e'.isPlain known = e.isPlain known := by
  rw [← e.isPlain_unplaced, same, e'.isPlain_unplaced]

theorem SameExpr.value? (same : SameExpr e e') : e'.value? names = e.value? names := by
  rw [← e.value?_unplaced, same, e'.value?_unplaced]

/-! ## Simplification -/

namespace Simplify

/-- An operator on literals becomes the literal of its value. -/
theorem fold_cases (op : String) (args : List Expr) (p : Pos) :
    fold op args p = .operator op args p ∨
      ∃ v, fold op args p = .const v p ∧ (Expr.operator op args p).value? names = some v := by
  unfold fold
  split
  · split
    · rename_i a _ b _ v applied
      refine .inr ⟨v, rfl, ?_⟩
      simp only [Expr.value?, values?, Option.bind_some, Option.map_some, applied]
      rfl
    · exact .inl rfl
  · exact .inl rfl

theorem pick_of_isPlain {root : Expr} (h : root.isPlain known = true) (steps : List Step) :
    pick root steps = .chain root steps := by
  cases root <;> simp_all [Expr.isPlain, pick]

mutual

theorem isPlain_expr : ∀ e : Expr, e.isPlain known = true → (expr e).isPlain known = true
  | .const .., _ => rfl
  | .variable .., h => h
  | .operator op args p, h => by
    rw [expr]
    rcases @fold_cases (fun _ => none) op (exprs args) p with eq | ⟨v, eq, -⟩
    · rw [eq]
      exact plainExprs_exprs args h
    · rw [eq]
      rfl
  | .chain root ss, h => by
    rw [Expr.isPlain, Bool.and_eq_true] at h
    have plain := isPlain_expr root h.1
    rw [expr, pick_of_isPlain plain, Expr.isPlain, plain, plainSteps_steps ss h.2]
    rfl

theorem plainExprs_exprs : ∀ es : List Expr, plainExprs known es = true →
    plainExprs known (exprs es) = true
  | [], _ => rfl
  | e :: rest, h => by
    rw [plainExprs, Bool.and_eq_true] at h
    rw [exprs, plainExprs, isPlain_expr e h.1, plainExprs_exprs rest h.2]
    rfl

theorem plainSteps_steps : ∀ ss : List Step, plainSteps known ss = true →
    plainSteps known (steps ss) = true
  | [], _ => rfl
  | .property .. :: rest, h => plainSteps_steps rest h
  | .index e p o :: rest, h => by
    rw [plainSteps, Bool.and_eq_true] at h
    rw [steps, plainSteps, isPlain_expr e h.1, plainSteps_steps rest h.2]
    rfl

end

mutual

theorem value?_expr : ∀ e : Expr, e.isPlain known = true → (expr e).value? names = e.value? names
  | .const .., _ | .variable .., _ => rfl
  | .operator op args p, h => by
    have values := values?_exprs args h
    have same : (Expr.operator op (exprs args) p).value? names =
        (Expr.operator op args p).value? names := by
      rw [Expr.value?, Expr.value?, values]
    rw [expr, ← same]
    rcases @fold_cases names op (exprs args) p with eq | ⟨v, eq, value⟩
    · rw [eq]
    · rw [eq, value, Expr.value?]
  | .chain root ss, h => by
    rw [Expr.isPlain, Bool.and_eq_true] at h
    rw [expr, pick_of_isPlain (isPlain_expr root h.1)]
    exact value?_chain_congr (value?_expr root h.1) (accesses?_steps ss h.2)

theorem values?_exprs : ∀ es : List Expr, plainExprs known es = true →
    values? names (exprs es) = values? names es
  | [], _ => rfl
  | e :: rest, h => by
    rw [plainExprs, Bool.and_eq_true] at h
    rw [exprs, values?, values?, value?_expr e h.1, values?_exprs rest h.2]

theorem accesses?_steps : ∀ ss : List Step, plainSteps known ss = true →
    (accesses? names (steps ss)).map (·.map Access.unplaced) =
      (accesses? names ss).map (·.map Access.unplaced)
  | [], _ => rfl
  | .property .. :: rest, h => map_cons_congr rfl (accesses?_steps rest h)
  | .index e p o :: rest, h => by
    rw [plainSteps, Bool.and_eq_true] at h
    exact accesses?_index_congr (value?_expr e h.1) (accesses?_steps rest h.2)

end

end Simplify

end Stencil.Script
