import Stencil.Resolver
import Stencil.Proofs.Script.Moving
import Stencil.Proofs.Script.Outline

/-!
# Scripts that are neutral in the mode of emission

A script is neutral if it asks for the mode of emission only to decide between two statements that
are the same but for their places, and evaluates no texts.  Simplification keeps a script neutral.
A script is neutral where the statements look the same to its reader, unless there are closures in
them or around them.
-/

namespace Stencil.Script

open Resolver (modeName)

/-! ## Trees at the start of a script -/

def Expr.atStart (e : Expr) : Expr := e.moved fun _ => Pos.start

def Stmt.atStart (s : Stmt) : Stmt := s.moved fun _ => Pos.start

def Program.atStart (program : Program) : Program := program.moved fun _ => Pos.start

/-! ## Effects -/

/-- Whether a statement begins with an assignment, be it guarded or in a block. -/
def Stmt.acts : Stmt → Bool
  | .assign .. => true
  | .attempt body _ _ _ => body.acts
  | .block (s :: _) _ => s.acts
  | _ => false

/-! ## Rules for the mode -/

/-- Which names a closure may capture, and which two statements may depend on the mode. -/
structure ModeRule where
  captures : List String → Prop
  copies : Stmt → Stmt → Prop

mutual

/--
Whether an expression keeps a rule for the mode.  It has the name of the mode in conditionals only,
and it evaluates no texts, which could have it too.
-/
def Expr.Keeps (rule : ModeRule) : Expr → Prop
  | .const .. | .this .. => True
  | .interpolated parts _ => exprsKeep rule parts
  | .array items _ => exprsKeep rule items
  | .map fields _ => fieldsKeep rule fields
  | .variable name _ => name ≠ modeName
  | .call name args _ => name ≠ "eval" ∧ exprsKeep rule args
  | .operator _ args _ => exprsKeep rule args
  | .both left right _ | .either left right _ | .coalesce left right _ =>
    left.Keeps rule ∧ right.Keeps rule
  | .chain root steps => root.Keeps rule ∧ stepsKeep rule steps
  | .statement s => s.Keeps rule
  | .closure _ captures _ => rule.captures (captures.map (·.1))

def Step.Keeps (rule : ModeRule) : Step → Prop
  | .property .. => True
  | .method _ args _ _ => exprsKeep rule args
  | .index e _ _ => e.Keeps rule

/-- The statements of a conditional on the mode have an effect: others may be simplified away. -/
def Stmt.Keeps (rule : ModeRule) : Stmt → Prop
  | .skip _ | .next _ => True
  | .expr e => e.Keeps rule
  | .declare _ value _ _ => value.Keeps rule
  | .assign _ target value _ => target.Keeps rule ∧ value.Keeps rule
  | .block body _ => stmtsKeep rule body
  | .branch c yes no _ =>
    (c.Keeps rule ∨ (∃ p, c = .variable modeName p) ∧ rule.copies yes no ∧ yes.acts = true) ∧
      yes.Keeps rule ∧ no.Keeps rule
  | .select subject cases _ => subject.Keeps rule ∧ casesKeep rule cases
  | .loop body _ => body.Keeps rule
  | .repeatWhile c body _ => c.Keeps rule ∧ body.Keeps rule
  | .repeatAfter body c _ _ => body.Keeps rule ∧ c.Keeps rule
  | .each _ _ subject body _ => subject.Keeps rule ∧ body.Keeps rule
  | .attempt body _ handler _ => body.Keeps rule ∧ handler.Keeps rule
  | .ret value _ | .throw value _ | .leave value _ => optionKeeps rule value
  | .load path _ => path.Keeps rule

def optionKeeps (rule : ModeRule) : Option Expr → Prop
  | none => True
  | some e => e.Keeps rule

def exprsKeep (rule : ModeRule) : List Expr → Prop
  | [] => True
  | e :: rest => e.Keeps rule ∧ exprsKeep rule rest

def fieldsKeep (rule : ModeRule) : List Field → Prop
  | [] => True
  | .mk _ e :: rest => e.Keeps rule ∧ fieldsKeep rule rest

def stepsKeep (rule : ModeRule) : List Step → Prop
  | [] => True
  | s :: rest => s.Keeps rule ∧ stepsKeep rule rest

def stmtsKeep (rule : ModeRule) : List Stmt → Prop
  | [] => True
  | s :: rest => s.Keeps rule ∧ stmtsKeep rule rest

def casesKeep (rule : ModeRule) : List Case → Prop
  | [] => True
  | .mk _ guard body :: rest => guard.Keeps rule ∧ body.Keeps rule ∧ casesKeep rule rest

end

structure Program.Keeps (rule : ModeRule) (program : Program) : Prop where
  functions : ∀ f ∈ program.functions, f.body.Keeps rule
  body : stmtsKeep rule program.body

section

variable {rule : ModeRule}

theorem exprsKeep_iff {es : List Expr} : exprsKeep rule es ↔ ∀ e ∈ es, e.Keeps rule := by
  induction es with
  | nil => simp [exprsKeep]
  | cons e rest ih => simp [exprsKeep, ih]

theorem fieldsKeep_iff {fs : List Field} :
    fieldsKeep rule fs ↔ ∀ name e, .mk name e ∈ fs → e.Keeps rule := by
  induction fs with
  | nil => simp [fieldsKeep]
  | cons f rest ih =>
    obtain ⟨n, value⟩ := f
    simp only [fieldsKeep, ih, List.mem_cons, Field.mk.injEq]
    refine ⟨fun ⟨first, others⟩ name e h => ?_, fun h => ⟨h n value (.inl ⟨rfl, rfl⟩),
      fun name e mem => h name e (.inr mem)⟩⟩
    rcases h with ⟨-, rfl⟩ | mem
    · exact first
    · exact others name e mem

theorem stepsKeep_iff {ss : List Step} : stepsKeep rule ss ↔ ∀ s ∈ ss, s.Keeps rule := by
  induction ss with
  | nil => simp [stepsKeep]
  | cons s rest ih => simp [stepsKeep, ih]

theorem stmtsKeep_iff {ss : List Stmt} : stmtsKeep rule ss ↔ ∀ s ∈ ss, s.Keeps rule := by
  induction ss with
  | nil => simp [stmtsKeep]
  | cons s rest ih => simp [stmtsKeep, ih]

theorem casesKeep_iff {cs : List Case} : casesKeep rule cs ↔
    ∀ patterns guard body, .mk patterns guard body ∈ cs → guard.Keeps rule ∧ body.Keeps rule := by
  induction cs with
  | nil => simp [casesKeep]
  | cons c rest ih =>
    obtain ⟨ps, g, b⟩ := c
    simp only [casesKeep, ih, List.mem_cons, Case.mk.injEq]
    refine ⟨fun ⟨guard, body, others⟩ patterns g' b' h => ?_, fun h =>
      ⟨(h ps g b (.inl ⟨rfl, rfl, rfl⟩)).1, (h ps g b (.inl ⟨rfl, rfl, rfl⟩)).2,
        fun patterns g' b' mem => h patterns g' b' (.inr mem)⟩⟩
    rcases h with ⟨-, rfl, rfl⟩ | mem
    · exact ⟨guard, body⟩
    · exact others patterns g' b' mem

end

/-- No closure captures the mode, and both statements are the same but for their places. -/
def neutral : ModeRule where
  captures names := modeName ∉ names
  copies yes no := yes.atStart = no.atStart

namespace Simplify

/-! ## Simplification keeps effects -/

theorem pureStmt_of_acts : ∀ {s : Stmt}, s.acts = true → pureStmt s = false
  | .assign .., _ => rfl
  | .attempt body name handler p, h => by
    rw [Stmt.acts] at h
    rw [pureStmt, pureStmt_of_acts h, Bool.false_and]
  | .block (s :: rest) p, h => by
    rw [Stmt.acts] at h
    rw [pureStmt, pureStmts, pureStmt_of_acts h, Bool.false_and]

theorem isEmpty_of_acts {s : Stmt} (h : s.acts = true) : isEmpty s = false := by
  cases s with
  | block body p =>
    cases body with
    | nil => cases h
    | cons s rest => rfl
  | skip p => cases h
  | _ => rfl

theorem prune_cons_of_acts (keep : Bool) {s : Stmt} (h : s.acts = true) (rest : List Stmt) :
    prune keep (s :: rest) = s :: prune keep rest := by
  rcases prune_cases keep s rest with eq | ⟨noEffect, -⟩
  · exact eq
  · rw [pureStmt_of_acts h] at noEffect
    cases noEffect

theorem acts_stmt (keep : Bool) : ∀ {s : Stmt}, s.acts = true → (stmt keep s).acts = true
  | .assign op target value p, _ => by
    rcases assign_eq_or op (expr target) (expr value) p with eq | ⟨_, _, _, _, _, _, _, _, _, _, eq⟩
    · rw [stmt, eq, Stmt.acts]
    · rw [stmt, eq, Stmt.acts]
  | .attempt body name handler p, h => by
    rw [Stmt.acts] at h
    have inside := acts_stmt false h
    rw [stmt]
    simp only [pureStmt_of_acts inside, Bool.false_eq_true, if_false]
    exact inside
  | .block (s :: rest) p, h => by
    rw [Stmt.acts] at h
    have inside := acts_stmt keep h
    rw [stmt, stmts, prune_cons_of_acts keep inside, Stmt.acts]
    exact inside

/-! ## Simplification keeps a script neutral -/

theorem neutral_prune (keep : Bool) {ss : List Stmt} (h : stmtsKeep neutral ss) :
    stmtsKeep neutral (prune keep ss) := by
  induction ss with
  | nil => trivial
  | cons s rest ih =>
    obtain ⟨first, others⟩ := h
    rcases prune_cases keep s rest with eq | ⟨-, eq⟩
    · rw [eq]
      exact ⟨first, ih others⟩
    · rw [eq]
      exact ih others

theorem neutral_fold (op : String) {args : List Expr} (h : exprsKeep neutral args) (p : Pos) :
    (fold op args p).Keeps neutral := by
  rw [fold.eq_def]
  split
  · split
    · trivial
    · exact h
  · exact h

theorem neutral_of_fieldValue? {name : String} {fs : List Field} {e : Expr}
    (h : fieldsKeep neutral fs)
    (found : fieldValue? name fs = some e) : e.Keeps neutral := by
  induction fs with
  | nil => cases found
  | cons f rest ih =>
    obtain ⟨n, value⟩ := f
    obtain ⟨first, others⟩ := h
    rw [fieldValue?] at found
    split at found
    · obtain rfl := Option.some.inj found
      exact first
    · exact ih others found

theorem neutral_pick {root : Expr} {ss : List Step} (h : root.Keeps neutral)
    (hs : stepsKeep neutral ss) :
    (pick root ss).Keeps neutral := by
  have field {name : String} {fs : List Field} (inside : fieldsKeep neutral fs) (p : Pos) :
      ((fieldValue? name fs).getD (.const .unit p)).Keeps neutral := by
    cases found : fieldValue? name fs with
    | none => trivial
    | some e => exact neutral_of_fieldValue? inside found
  rw [pick.eq_def]
  split
  · split
    · exact field h _
    · exact ⟨h, hs⟩
  · split
    · exact field h _
    · exact ⟨h, hs⟩
  · rename_i items q i u v optional
    dsimp only
    generalize (if i < 0 then (items.length : Int) + i else i) = place
    split
    · cases found : items[place.toNat]? with
      | none => exact ⟨h, hs⟩
      | some e => exact exprsKeep_iff.1 h e (List.mem_of_getElem? found)
    · exact ⟨h, hs⟩
  · exact ⟨h, hs⟩

theorem neutral_assign {op : Option String} {target value : Expr} (ht : target.Keeps neutral)
    (hv : value.Keeps neutral) (p : Pos) : (assign op target value p).Keeps neutral := by
  rcases assign_eq_or op target value p with eq | ⟨_, _, _, _, _, _, rfl, rfl, rfl, -, eq⟩
  · rw [eq]
    exact ⟨ht, hv⟩
  · rw [eq]
    exact ⟨ht, hv.2.1⟩

theorem neutral_branch (keep : Bool) {c : Expr} {yes no : Stmt} {p : Pos}
    (h : (Stmt.branch c yes no p).Keeps neutral) : (branch keep c yes no p).Keeps neutral := by
  rw [branch]
  split
  · rename_i empty
    rw [Bool.and_eq_true] at empty
    obtain ⟨neutral | ⟨-, -, acts⟩, -⟩ := h
    · split
      · exact ⟨neutral, trivial, trivial⟩
      · exact neutral
    · rw [isEmpty_of_acts acts] at empty
      cases empty.1
  · exact h

mutual

theorem neutral_expr : ∀ {e : Expr}, e.Keeps neutral → (expr e).Keeps neutral
  | .const .., _ | .this .., _ => trivial
  | .variable .., h => h
  | .closure .., h => h
  | .interpolated parts p, h => neutral_exprs h
  | .array items p, h => neutral_exprs h
  | .map fs p, h => neutral_fields h
  | .call n args p, h => ⟨h.1, neutral_exprs h.2⟩
  | .operator op args p, h => neutral_fold op (neutral_exprs h) p
  | .both l r p, ⟨hl, hr⟩ => by
    have left := neutral_expr hl
    have right := neutral_expr hr
    rw [expr]
    split
    · exact right
    · trivial
    · exact left
    · exact ⟨left, right⟩
  | .either l r p, ⟨hl, hr⟩ => by
    have left := neutral_expr hl
    have right := neutral_expr hr
    rw [expr]
    split
    · exact right
    · trivial
    · exact left
    · exact ⟨left, right⟩
  | .coalesce l r p, ⟨hl, hr⟩ => by
    have left := neutral_expr hl
    have right := neutral_expr hr
    rw [expr]
    split
    · exact right
    · trivial
    · exact ⟨left, right⟩
  | .chain root ss, ⟨hr, hs⟩ => neutral_pick (neutral_expr hr) (neutral_steps hs)
  | .statement s, h => neutral_stmt true h

theorem neutral_exprs : ∀ {es : List Expr}, exprsKeep neutral es → exprsKeep neutral (exprs es)
  | [], _ => trivial
  | _ :: _, ⟨first, others⟩ => ⟨neutral_expr first, neutral_exprs others⟩

theorem neutral_fields : ∀ {fs : List Field}, fieldsKeep neutral fs → fieldsKeep neutral (fields fs)
  | [], _ => trivial
  | .mk _ _ :: _, ⟨first, others⟩ => ⟨neutral_expr first, neutral_fields others⟩

theorem neutral_steps : ∀ {ss : List Step}, stepsKeep neutral ss → stepsKeep neutral (steps ss)
  | [], _ => trivial
  | .property .. :: _, ⟨_, others⟩ => ⟨trivial, neutral_steps others⟩
  | .method .. :: _, ⟨first, others⟩ => ⟨neutral_exprs first, neutral_steps others⟩
  | .index .. :: _, ⟨first, others⟩ => ⟨neutral_expr first, neutral_steps others⟩

theorem neutral_option : ∀ {e : Option Expr}, optionKeeps neutral e → optionKeeps neutral (option e)
  | none, _ => trivial
  | some _, h => neutral_expr h

theorem neutral_stmt (keep : Bool) : ∀ {s : Stmt}, s.Keeps neutral → (stmt keep s).Keeps neutral
  | .skip _, _ | .next _, _ => trivial
  | .expr e, h => neutral_expr h
  | .declare n v c p, h => neutral_expr h
  | .assign op t v p, ⟨ht, hv⟩ => neutral_assign (neutral_expr ht) (neutral_expr hv) p
  | .block body p, h => neutral_prune keep (neutral_stmts keep h)
  | .branch c yes no p, ⟨condition, hy, hn⟩ => by
    apply neutral_branch
    refine ⟨?_, neutral_stmt keep hy, neutral_stmt keep hn⟩
    rcases condition with neutral | ⟨⟨q, rfl⟩, same, acts⟩
    · exact .inl (neutral_expr neutral)
    · refine .inr ⟨⟨q, rfl⟩, ?_, acts_stmt keep acts⟩
      have simpler (s : Stmt) : (stmt keep s).atStart = stmt keep s.atStart :=
        (stmt_moved _ keep s).symm
      exact (simpler yes).trans ((congrArg (stmt keep) same).trans (simpler no).symm)
  | .select s cs p, ⟨hs, hc⟩ => ⟨neutral_expr hs, neutral_cases hc⟩
  | .loop body p, h => neutral_stmt false h
  | .repeatWhile c body p, ⟨hc, hb⟩ => ⟨neutral_expr hc, neutral_stmt false hb⟩
  | .repeatAfter body c w p, ⟨hb, hc⟩ => ⟨neutral_stmt false hb, neutral_expr hc⟩
  | .each n i s body p, ⟨hs, hb⟩ => ⟨neutral_expr hs, neutral_stmt false hb⟩
  | .attempt body n h p, ⟨hb, hh⟩ => by
    have inside := neutral_stmt false hb
    rw [stmt]
    split
    · exact inside
    · exact ⟨inside, neutral_stmt false hh⟩
  | .ret v p, h => neutral_option h
  | .throw v p, h => neutral_option h
  | .leave v p, h => neutral_option h
  | .load e p, h => neutral_expr h

theorem neutral_stmts (keep : Bool) :
    ∀ {ss : List Stmt}, stmtsKeep neutral ss → stmtsKeep neutral (stmts keep ss)
  | [], _ => trivial
  | _ :: _, ⟨first, others⟩ => ⟨neutral_stmt keep first, neutral_stmts keep others⟩

theorem neutral_cases : ∀ {cs : List Case}, casesKeep neutral cs → casesKeep neutral (cases cs)
  | [], _ => trivial
  | .mk _ _ _ :: _, ⟨guard, body, others⟩ =>
    ⟨neutral_expr guard, neutral_stmt true body, neutral_cases others⟩

end

end Simplify

theorem Program.Keeps.simplify {program : Program} (h : program.Keeps neutral) :
    program.simplify.Keeps neutral where
  functions := by
    intro f hf
    obtain ⟨g, hg, rfl⟩ := List.mem_map.1 hf
    exact Simplify.neutral_stmt true (h.functions g hg)
  body := Simplify.neutral_prune true (Simplify.neutral_stmts true h.body)

end Stencil.Script
