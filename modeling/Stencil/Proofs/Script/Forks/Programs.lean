import Stencil.Proofs.Script.Forks.Expressions

/-!
# Programs with forks

A script that names the mode of emission in forks only is read as a program that depends on the mode
only between statements that look the same to its reader.  A reader names closures one after the
other and notes what they capture, so that such a program is neutral where its closures keep apart
from the mode.
-/

namespace Stencil.Script

open Resolver (modeName)

/-! ## The last token -/

namespace Lexer

theorem rest_of_firstSign {cs r : List Char} {known : List String} {sign : String}
    (h : firstSign cs known = some (sign, r)) : r = cs.drop sign.length := by
  induction known with
  | nil => cases h
  | cons other more ih =>
    rw [firstSign] at h
    split at h
    · cases h
      rfl
    · exact ih h

/-- A token that is not steady is a word or a sign, so that less is left behind it. -/
theorem length_of_unsteady {operand : Bool} {p : Pos} {c : Char} {r : List Char}
    (unsteady : ¬IsSteady (token operand p c r).1.token) :
    (token operand p c r).2.2.length < (c :: r).length := by
  have quote (start : Pos) (q : Quote) : IsSteady (ofQuote start q).1.token := by
    cases q <;> simp [ofQuote, IsSteady]
  have decimal (negative : Bool) (cs : List Char) : IsSteady (decimal negative cs).1 := by
    simp only [Lexer.decimal]
    split
    · simp [IsSteady]
    · split <;> simp [IsSteady]
  have number (negative : Bool) (cs : List Char) : IsSteady (number negative cs).1 := by
    unfold Lexer.number
    split
    · split
      · simp only
        split <;> simp [IsSteady]
      · exact decimal _ _
    · exact decimal _ _
  revert unsteady
  unfold token
  dsimp only
  split
  · exact fun unsteady => absurd (quote _ _) unsteady
  split
  · exact fun unsteady => absurd (quote _ _) unsteady
  split
  · split
    · simp
    · split
      · simp [IsSteady]
      · simp [IsSteady]
      · simp
  split
  · rename_i start
    have part : isNamePart c = true := by
      simp only [isNameStart, Bool.or_eq_true] at start
      rcases start with letter | line <;> simp [isNamePart, Char.isAlphanum, *]
    intro _
    rw [List.dropWhile_cons_of_pos part]
    exact Nat.lt_succ_of_le (List.dropWhile_suffix _).length_le
  split
  · exact fun unsteady => absurd (number _ _) unsteady
  split
  · exact fun unsteady => absurd (number _ _) unsteady
  split
  · exact fun unsteady => absurd (quote _ _) unsteady
  split
  · exact fun unsteady => absurd (show IsSteady (.sign "!in") by decide) unsteady
  split
  · rename_i sign rest found
    have filled : ∀ s ∈ signs, 0 < s.length := by decide
    have positive := filled sign (mem_of_firstSign found).1
    have behind := rest_of_firstSign found
    intro _
    split <;> (simp [behind]; omega)
  · simp

theorem exists_last_of_scan (s : State) (cs : List Char) :
    ∃ front p, scan s cs = front ++ [p] ∧ IsSteady p.token := by
  fun_induction scan s cs with
  | case1 s cs inText t q rest read short ih =>
    obtain ⟨front, p, eq, steady⟩ := ih
    exact ⟨t :: front, p, by rw [eq, List.cons_append], steady⟩
  | case2 s cs inText t q rest read =>
    refine ⟨[], t, rfl, ?_⟩
    have steady (start : Pos) (q : Quote) : IsSteady (ofQuote start q).1.token := by
      cases q <;> simp [ofQuote, IsSteady]
    have own := steady s.pos (verbatim s.pos s.pos cs)
    rwa [read] at own
  | case3 => exact ⟨[], _, rfl, by simp [IsSteady]⟩
  | case4 s cs outside q c r skipped t q' rest read reason bad =>
    exact ⟨[], t, rfl, by simp [bad, IsSteady]⟩
  | case5 s cs outside q c r skipped t q' rest read short good ih =>
    obtain ⟨front, p, eq, steady⟩ := ih
    exact ⟨t :: front, p, by rw [eq, List.cons_append], steady⟩
  | case6 s cs outside q c r skipped t q' rest read long good =>
    refine ⟨[], t, rfl, Decidable.byContradiction fun unsteady => long ?_⟩
    have less := @length_of_unsteady s.operand q c r (by rwa [read])
    have suffix := (rest_skipGap .space s.pos cs).length_le
    rw [read] at less
    rw [skipped] at suffix
    exact Nat.lt_of_lt_of_le less suffix

end Lexer
/-! ## Scripts -/

namespace Parser

theorem forks_script {fuel : Nat} {a : Around} {acc : List Stmt} {g : Margin} {r : Reading}
    (here : Within .ended g r) (keeps : stmtsKeep twinned acc) :
    Yields g r (script fuel a acc) (stmtsKeep twinned) := by
  induction fuel generalizing acc r with
  | zero => exact .of_fails fails_tooDeep
  | succ fuel ih =>
    rw [script]
    refine Leaves.peek_bind ?_
    split
    · exact Yields.pure (stmtsKeep_reverse keeps) here
    · refine ((forking fuel).statement here).bind fun st s own here => ?_
      have keeps' : stmtsKeep twinned (st :: acc) := ⟨own, keeps⟩
      split
      · exact ih here keeps
      · refine Leaves.peek_bind ?_
        split
        · exact Yields.pure (stmtsKeep_reverse keeps') here
        · split
          · exact ih here keeps'
          · exact (Yields.expect here (by decide)).bind fun _ _ _ here => ih here keeps'

end Parser

theorem keeps_of_forked {text : String} {program : Program} (forked : Forked .ended (tokens text))
    (parsed : parse text = .ok program) : program.Keeps twinned := by
  obtain ⟨front, last, row, steady⟩ :=
    Lexer.exists_last_of_scan ⟨Pos.start, false, [], false⟩ text.toList
  have row : tokens text = front ++ [last] := row
  have here : Parser.Within .ended ⟨fun n => beyond (n + 1) (tokens text), 0⟩
      ⟨tokens text, [], [], []⟩ := by
    refine ⟨⟨by simp [row], fun p hp => ?_⟩, forked, fun _ => rfl, by simp, Nat.zero_le _⟩
    obtain rfl : last = p := by simpa [row] using hp
    exact steady
  rw [parse, Parser.run] at parsed
  cases read : Parser.script (Parser.fuelFor (tokens text))
      ⟨true, false, false, false, 0, Parser.depthLimit⟩ [] ⟨tokens text, [], [], []⟩ with
  | error fault => simp [read, bind, Except.bind] at parsed
  | ok result =>
    obtain ⟨body, r⟩ := result
    simp only [read, bind, Except.bind, Pure.pure, Except.pure, Except.ok.injEq] at parsed
    obtain ⟨keeps, behind⟩ :=
      Parser.forks_script here (show stmtsKeep twinned [] from trivial) body r read
    rw [← parsed]
    exact ⟨fun f hf => behind.functions f (List.mem_reverse.1 hf), keeps⟩

/-! ## Closures apart from the mode -/

/-- Whether an expression is the mode of emission. -/
def Expr.isMode : Expr → Bool
  | .variable name _ => name = modeName
  | _ => false

mutual

/--
Whether closures keep apart from the mode of emission: none of them captures it, and there is none
in the statements that depend on it.  `inside` tells whether the expression is in such statements.
-/
def Expr.isApart (inside : Bool) : Expr → Bool
  | .const .. | .variable .. | .this .. => true
  | .interpolated parts _ => exprsApart inside parts
  | .array items _ => exprsApart inside items
  | .map fields _ => fieldsApart inside fields
  | .call _ args _ | .operator _ args _ => exprsApart inside args
  | .both left right _ | .either left right _ | .coalesce left right _ =>
    left.isApart inside && right.isApart inside
  | .chain root steps => root.isApart inside && stepsApart inside steps
  | .statement s => s.isApart inside
  | .closure _ captures _ => !inside && captures.all fun capture => capture.1 ≠ modeName

def Step.isApart (inside : Bool) : Step → Bool
  | .property .. => true
  | .method _ args _ _ => exprsApart inside args
  | .index e _ _ => e.isApart inside

def Stmt.isApart (inside : Bool) : Stmt → Bool
  | .skip _ | .next _ => true
  | .expr e => e.isApart inside
  | .declare _ value _ _ => value.isApart inside
  | .assign _ target value _ => target.isApart inside && value.isApart inside
  | .block body _ => stmtsApart inside body
  | .branch c yes no _ =>
    c.isApart inside && (yes.isApart (inside || c.isMode) && no.isApart (inside || c.isMode))
  | .select subject cases _ => subject.isApart inside && casesApart inside cases
  | .loop body _ => body.isApart inside
  | .repeatWhile c body _ => c.isApart inside && body.isApart inside
  | .repeatAfter body c _ _ => body.isApart inside && c.isApart inside
  | .each _ _ subject body _ => subject.isApart inside && body.isApart inside
  | .attempt body _ handler _ => body.isApart inside && handler.isApart inside
  | .ret value _ | .throw value _ | .leave value _ => optionApart inside value
  | .load path _ => path.isApart inside

def optionApart (inside : Bool) : Option Expr → Bool
  | none => true
  | some e => e.isApart inside

def exprsApart (inside : Bool) : List Expr → Bool
  | [] => true
  | e :: rest => e.isApart inside && exprsApart inside rest

def fieldsApart (inside : Bool) : List Field → Bool
  | [] => true
  | .mk _ e :: rest => e.isApart inside && fieldsApart inside rest

def stepsApart (inside : Bool) : List Step → Bool
  | [] => true
  | s :: rest => s.isApart inside && stepsApart inside rest

def stmtsApart (inside : Bool) : List Stmt → Bool
  | [] => true
  | s :: rest => s.isApart inside && stmtsApart inside rest

def casesApart (inside : Bool) : List Case → Bool
  | [] => true
  | .mk _ guard body :: rest =>
    guard.isApart inside && (body.isApart inside && casesApart inside rest)

end

def Program.isApart (program : Program) : Bool :=
  program.functions.all (·.body.isApart false) && stmtsApart false program.body

/-! ### Trees without closures -/

mutual

theorem atStart_expr : ∀ {e : Expr}, e.isApart true = true →
    e.moved (fun _ => Pos.start) = e.unplaced
  | .const .., _ | .variable .., _ | .this .., _ => rfl
  | .closure .., h => by simp [Expr.isApart] at h
  | .interpolated parts _, h | .array parts _, h | .call _ parts _, h | .operator _ parts _, h => by
    have inside : exprsApart true parts = true := h
    rw [Expr.moved, Expr.unplaced, atStart_exprs inside]
  | .map fields _, h => by
    have inside : fieldsApart true fields = true := h
    rw [Expr.moved, Expr.unplaced, atStart_fields inside]
  | .both l r _, h | .either l r _, h | .coalesce l r _, h => by
    obtain ⟨hl, hr⟩ := Bool.and_eq_true_iff.1 h
    rw [Expr.moved, Expr.unplaced, atStart_expr hl, atStart_expr hr]
  | .chain root steps, h => by
    obtain ⟨hr, hs⟩ := Bool.and_eq_true_iff.1 h
    rw [Expr.moved, Expr.unplaced, atStart_expr hr, atStart_steps hs]
  | .statement s, h => congrArg Expr.statement (atStart_stmt h)

theorem atStart_step : ∀ {s : Step}, s.isApart true = true →
    s.moved (fun _ => Pos.start) = s.unplaced
  | .property .., _ => rfl
  | .method _ args _ _, h => by
    have inside : exprsApart true args = true := h
    rw [Step.moved, Step.unplaced, atStart_exprs inside]
  | .index e _ _, h => by
    have inside : e.isApart true = true := h
    rw [Step.moved, Step.unplaced, atStart_expr inside]

theorem atStart_stmt : ∀ {s : Stmt}, s.isApart true = true →
    s.moved (fun _ => Pos.start) = s.unplaced
  | .skip _, _ | .next _, _ => rfl
  | .expr e, h | .declare _ e _ _, h | .load e _, h => by
    have inside : e.isApart true = true := h
    rw [Stmt.moved, Stmt.unplaced, atStart_expr inside]
  | .assign _ t v _, h => by
    obtain ⟨ht, hv⟩ := Bool.and_eq_true_iff.1 h
    rw [Stmt.moved, Stmt.unplaced, atStart_expr ht, atStart_expr hv]
  | .block body _, h => by
    have inside : stmtsApart true body = true := h
    rw [Stmt.moved, Stmt.unplaced, atStart_stmts inside]
  | .branch c yes no _, h => by
    obtain ⟨hc, others⟩ := Bool.and_eq_true_iff.1 h
    obtain ⟨hy, hn⟩ := Bool.and_eq_true_iff.1 others
    rw [Stmt.moved, Stmt.unplaced, atStart_expr hc, atStart_stmt hy, atStart_stmt hn]
  | .select s cs _, h => by
    obtain ⟨hs, hc⟩ := Bool.and_eq_true_iff.1 h
    rw [Stmt.moved, Stmt.unplaced, atStart_expr hs, atStart_cases hc]
  | .loop body _, h => by
    have inside : body.isApart true = true := h
    rw [Stmt.moved, Stmt.unplaced, atStart_stmt inside]
  | .repeatWhile e body _, h | .each _ _ e body _, h => by
    obtain ⟨he, hb⟩ := Bool.and_eq_true_iff.1 h
    rw [Stmt.moved, Stmt.unplaced, atStart_expr he, atStart_stmt hb]
  | .repeatAfter body c _ _, h => by
    obtain ⟨hb, hc⟩ := Bool.and_eq_true_iff.1 h
    rw [Stmt.moved, Stmt.unplaced, atStart_expr hc, atStart_stmt hb]
  | .attempt body _ handler _, h => by
    obtain ⟨hb, hh⟩ := Bool.and_eq_true_iff.1 h
    rw [Stmt.moved, Stmt.unplaced, atStart_stmt hb, atStart_stmt hh]
  | .ret v _, h | .throw v _, h | .leave v _, h => by
    have inside : optionApart true v = true := h
    rw [Stmt.moved, Stmt.unplaced, atStart_option inside]

theorem atStart_option : ∀ {e : Option Expr}, optionApart true e = true →
    movedOption (fun _ => Pos.start) e = unplacedOption e
  | none, _ => rfl
  | some _, h => congrArg some (atStart_expr h)

theorem atStart_exprs : ∀ {es : List Expr}, exprsApart true es = true →
    movedExprs (fun _ => Pos.start) es = unplacedExprs es
  | [], _ => rfl
  | e :: rest, h => by
    obtain ⟨first, others⟩ := Bool.and_eq_true_iff.1 h
    rw [movedExprs, unplacedExprs, atStart_expr first, atStart_exprs others]

theorem atStart_fields : ∀ {fs : List Field}, fieldsApart true fs = true →
    movedFields (fun _ => Pos.start) fs = unplacedFields fs
  | [], _ => rfl
  | .mk _ e :: rest, h => by
    obtain ⟨first, others⟩ := Bool.and_eq_true_iff.1 h
    rw [movedFields, unplacedFields, Field.moved, Field.unplaced, atStart_expr first,
      atStart_fields others]

theorem atStart_steps : ∀ {ss : List Step}, stepsApart true ss = true →
    movedSteps (fun _ => Pos.start) ss = unplacedSteps ss
  | [], _ => rfl
  | s :: rest, h => by
    obtain ⟨first, others⟩ := Bool.and_eq_true_iff.1 h
    rw [movedSteps, unplacedSteps, atStart_step first, atStart_steps others]

theorem atStart_stmts : ∀ {ss : List Stmt}, stmtsApart true ss = true →
    movedStmts (fun _ => Pos.start) ss = unplacedStmts ss
  | [], _ => rfl
  | s :: rest, h => by
    obtain ⟨first, others⟩ := Bool.and_eq_true_iff.1 h
    rw [movedStmts, unplacedStmts, atStart_stmt first, atStart_stmts others]

theorem atStart_cases : ∀ {cs : List Case}, casesApart true cs = true →
    movedCases (fun _ => Pos.start) cs = unplacedCases cs
  | [], _ => rfl
  | .mk _ guard body :: rest, h => by
    obtain ⟨first, others⟩ := Bool.and_eq_true_iff.1 h
    obtain ⟨second, others⟩ := Bool.and_eq_true_iff.1 others
    rw [movedCases, unplacedCases, Case.moved, Case.unplaced, atStart_expr first,
      atStart_stmt second, atStart_cases others]

end

/-! ### Neutral scripts -/

mutual

theorem neutral_of_apart_expr {inside : Bool} : ∀ {e : Expr}, e.Keeps twinned →
    e.isApart inside = true → e.Keeps neutral
  | .const .., _, _ | .this .., _, _ => trivial
  | .variable .., h, _ => h
  | .closure _ captures _, _, apart => by
    intro mode
    obtain ⟨capture, mem, same⟩ := List.mem_map.1 mode
    have free := List.all_eq_true.1 (Bool.and_eq_true_iff.1 apart).2 capture mem
    exact of_decide_eq_true free same
  | .interpolated parts _, h, apart => neutral_of_apart_exprs h apart
  | .array items _, h, apart => neutral_of_apart_exprs h apart
  | .map fields _, h, apart => neutral_of_apart_fields h apart
  | .call _ args _, h, apart => ⟨h.1, neutral_of_apart_exprs h.2 apart⟩
  | .operator _ args _, h, apart => neutral_of_apart_exprs h apart
  | .both l r _, ⟨hl, hr⟩, apart | .either l r _, ⟨hl, hr⟩, apart
  | .coalesce l r _, ⟨hl, hr⟩, apart => by
    obtain ⟨left, right⟩ := Bool.and_eq_true_iff.1 apart
    exact ⟨neutral_of_apart_expr hl left, neutral_of_apart_expr hr right⟩
  | .chain root steps, ⟨hr, hs⟩, apart => by
    obtain ⟨first, others⟩ := Bool.and_eq_true_iff.1 apart
    exact ⟨neutral_of_apart_expr hr first, neutral_of_apart_steps hs others⟩
  | .statement s, h, apart => neutral_of_apart_stmt h apart

theorem neutral_of_apart_stmt {inside : Bool} : ∀ {s : Stmt}, s.Keeps twinned →
    s.isApart inside = true → s.Keeps neutral
  | .skip _, _, _ | .next _, _, _ => trivial
  | .expr e, h, apart => neutral_of_apart_expr h apart
  | .declare _ e _ _, h, apart => neutral_of_apart_expr h apart
  | .load e _, h, apart => neutral_of_apart_expr h apart
  | .assign _ t v _, ⟨ht, hv⟩, apart => by
    obtain ⟨target, value⟩ := Bool.and_eq_true_iff.1 apart
    exact ⟨neutral_of_apart_expr ht target, neutral_of_apart_expr hv value⟩
  | .block body _, h, apart => neutral_of_apart_stmts h apart
  | .branch c yes no _, ⟨condition, hy, hn⟩, apart => by
    obtain ⟨hc, others⟩ := Bool.and_eq_true_iff.1 apart
    obtain ⟨first, second⟩ := Bool.and_eq_true_iff.1 others
    refine ⟨?_, neutral_of_apart_stmt hy first, neutral_of_apart_stmt hn second⟩
    rcases condition with keeps | ⟨⟨p, rfl⟩, same, acts⟩
    · exact .inl (neutral_of_apart_expr keeps hc)
    · -- Both statements are inside of the conditional, and so have no closures.
      have deep : (inside || (Expr.variable modeName p).isMode) = true := by
        simp [Expr.isMode]
      rw [deep] at first second
      exact .inr ⟨⟨p, rfl⟩, (atStart_stmt first).trans (same.trans (atStart_stmt second).symm), acts⟩
  | .select s cs _, ⟨hs, hc⟩, apart => by
    obtain ⟨first, others⟩ := Bool.and_eq_true_iff.1 apart
    exact ⟨neutral_of_apart_expr hs first, neutral_of_apart_cases hc others⟩
  | .loop body _, h, apart => neutral_of_apart_stmt (s := body) h apart
  | .repeatWhile e body _, ⟨he, hb⟩, apart | .each _ _ e body _, ⟨he, hb⟩, apart => by
    obtain ⟨first, second⟩ := Bool.and_eq_true_iff.1 apart
    exact ⟨neutral_of_apart_expr he first, neutral_of_apart_stmt hb second⟩
  | .repeatAfter body c _ _, ⟨hb, hc⟩, apart => by
    obtain ⟨first, second⟩ := Bool.and_eq_true_iff.1 apart
    exact ⟨neutral_of_apart_stmt hb first, neutral_of_apart_expr hc second⟩
  | .attempt body _ handler _, ⟨hb, hh⟩, apart => by
    obtain ⟨first, second⟩ := Bool.and_eq_true_iff.1 apart
    exact ⟨neutral_of_apart_stmt hb first, neutral_of_apart_stmt hh second⟩
  | .ret v _, h, apart => neutral_of_apart_option h apart
  | .throw v _, h, apart => neutral_of_apart_option h apart
  | .leave v _, h, apart => neutral_of_apart_option h apart

theorem neutral_of_apart_option {inside : Bool} : ∀ {e : Option Expr}, optionKeeps twinned e →
    optionApart inside e = true → optionKeeps neutral e
  | none, _, _ => trivial
  | some _, h, apart => neutral_of_apart_expr h apart

theorem neutral_of_apart_exprs {inside : Bool} : ∀ {es : List Expr}, exprsKeep twinned es →
    exprsApart inside es = true → exprsKeep neutral es
  | [], _, _ => trivial
  | _ :: _, ⟨he, hs⟩, apart => by
    obtain ⟨first, others⟩ := Bool.and_eq_true_iff.1 apart
    exact ⟨neutral_of_apart_expr he first, neutral_of_apart_exprs hs others⟩

theorem neutral_of_apart_fields {inside : Bool} : ∀ {fs : List Field}, fieldsKeep twinned fs →
    fieldsApart inside fs = true → fieldsKeep neutral fs
  | [], _, _ => trivial
  | .mk _ _ :: _, ⟨he, hs⟩, apart => by
    obtain ⟨first, others⟩ := Bool.and_eq_true_iff.1 apart
    exact ⟨neutral_of_apart_expr he first, neutral_of_apart_fields hs others⟩

theorem neutral_of_apart_steps {inside : Bool} : ∀ {ss : List Step}, stepsKeep twinned ss →
    stepsApart inside ss = true → stepsKeep neutral ss
  | [], _, _ => trivial
  | .property .. :: _, ⟨_, hs⟩, apart => ⟨trivial, neutral_of_apart_steps hs apart⟩
  | .method .. :: _, ⟨ha, hs⟩, apart => by
    obtain ⟨first, others⟩ := Bool.and_eq_true_iff.1 apart
    exact ⟨neutral_of_apart_exprs ha first, neutral_of_apart_steps hs others⟩
  | .index .. :: _, ⟨he, hs⟩, apart => by
    obtain ⟨first, others⟩ := Bool.and_eq_true_iff.1 apart
    exact ⟨neutral_of_apart_expr he first, neutral_of_apart_steps hs others⟩

theorem neutral_of_apart_stmts {inside : Bool} : ∀ {ss : List Stmt}, stmtsKeep twinned ss →
    stmtsApart inside ss = true → stmtsKeep neutral ss
  | [], _, _ => trivial
  | _ :: _, ⟨he, hs⟩, apart => by
    obtain ⟨first, others⟩ := Bool.and_eq_true_iff.1 apart
    exact ⟨neutral_of_apart_stmt he first, neutral_of_apart_stmts hs others⟩

theorem neutral_of_apart_cases {inside : Bool} : ∀ {cs : List Case}, casesKeep twinned cs →
    casesApart inside cs = true → casesKeep neutral cs
  | [], _, _ => trivial
  | .mk _ _ _ :: _, ⟨hg, hb, hs⟩, apart => by
    obtain ⟨first, others⟩ := Bool.and_eq_true_iff.1 apart
    obtain ⟨second, others⟩ := Bool.and_eq_true_iff.1 others
    exact ⟨neutral_of_apart_expr hg first, neutral_of_apart_stmt hb second,
      neutral_of_apart_cases hs others⟩

end

theorem Program.Keeps.neutral_of_isApart {program : Program} (h : program.Keeps twinned)
    (apart : program.isApart = true) : program.Keeps neutral := by
  obtain ⟨functions, body⟩ := Bool.and_eq_true_iff.1 apart
  exact ⟨fun f hf => neutral_of_apart_stmt (h.functions f hf) (List.all_eq_true.1 functions f hf),
    neutral_of_apart_stmts h.body body⟩

end Stencil.Script
