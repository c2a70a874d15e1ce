import Stencil.Proofs.Script.Plain
import Stencil.Proofs.Script.Splicing.Expressions

/-!
# The end of a plain expression

What is read as a plain expression ends with a token that ends an operand: a literal, a name or a closing
bracket.  Reading it declares nothing and defines no function.  So a plain expression by itself ends by
itself, unless a comment stands behind it.
-/

namespace Stencil.Script

open Lexer (IsTerminated tokensOf)

namespace Parser

/-! ## What a reader leaves -/

/-- From `r` to `s` tokens are taken, and nothing else is noticed. -/
structure Moves (r s : Reading) : Prop where
  rest : s.rest <:+ r.rest
  filled : r.rest ≠ [] → s.rest ≠ []
  vars : s.vars = r.vars
  functions : s.functions = r.functions

/-- The last token that is taken ends an operand, at the end of the text at least. -/
structure Passes (r s : Reading) : Prop extends Moves r s where
  last : s.rest.head?.map (·.token) = some .ended →
    ∃ taken t, r.rest = taken ++ t :: s.rest ∧ t.token.endsOperand = true

variable {α β : Type} {r s u : Reading} {p : Placed}

theorem Moves.refl : Moves r r := ⟨List.suffix_refl _, id, rfl, rfl⟩

theorem Moves.trans (first : Moves r s) (second : Moves s u) : Moves r u where
  rest := second.rest.trans first.rest
  filled := second.filled ∘ first.filled
  vars := second.vars.trans first.vars
  functions := second.functions.trans first.functions

theorem Moves.passes (first : Moves r s) (second : Passes s u) : Passes r u where
  toMoves := first.trans second.toMoves
  last ended := by
    obtain ⟨before, whole⟩ := first.rest
    obtain ⟨taken, t, eq, ends⟩ := second.last ended
    exact ⟨before ++ taken, t, by rw [← whole, eq, List.append_assoc], ends⟩

theorem Passes.goes_on (first : Passes r s) (second : u = s ∨ Passes s u) : Passes r u := by
  rcases second with rfl | behind
  · exact first
  · exact first.toMoves.passes behind

/-- What is ahead stays ahead. -/
theorem Passes.moved (first : Passes r s) (second : Moves s u) (same : u.rest = s.rest) :
    Passes r u where
  toMoves := first.toMoves.trans second
  last ended := by
    rw [same] at ended ⊢
    exact first.last ended

/-- The token that is ahead of a reader. -/
def ahead (r : Reading) : Placed := r.rest.headD ⟨.ended, Pos.start⟩

/-- Where the reader `m` succeeds from `r`, `Q` holds of its result and of what it leaves. -/
def Leaves (m : Reader α) (r : Reading) (Q : α → Reading → Prop) : Prop :=
  ∀ a s, m r = .ok (a, s) → Q a s

namespace Leaves

variable {m : Reader α} {f : α → Reader β} {P Q : α → Reading → Prop} {R : β → Reading → Prop}

theorem of_fails (h : Fails m) : Leaves m r Q := fun a s eq => absurd eq (h r a s)

theorem pure {a : α} (h : Q a r) : Leaves (Pure.pure a) r Q := by
  rintro _ _ ⟨⟩
  exact h

theorem mono (h : Leaves m r P) (weaker : ∀ a s, P a s → Q a s) : Leaves m r Q :=
  fun a s eq => weaker a s (h a s eq)

theorem bind (first : Leaves m r P) (second : ∀ a s, P a s → Leaves (f a) s R) :
    Leaves (m >>= f) r R := by
  intro b u eq
  obtain ⟨a, s, eq₁, eq₂⟩ := ok_of_bind eq
  exact second a s (first a s eq₁) b u eq₂

/-- Behind a reader of which nothing is to be known. -/
theorem behind (second : ∀ a s, Leaves (f a) s R) : Leaves (m >>= f) r R :=
  bind (P := fun _ _ => True) (fun _ _ _ => trivial) fun a s _ => second a s

theorem peek : Leaves Reader.peek r (fun p s => p = ahead r ∧ s = r) := by
  rintro _ _ ⟨⟩
  exact ⟨rfl, rfl⟩

theorem take : Leaves Reader.take r
    (fun p s => p = ahead r ∧ Moves r s ∧ (p.token.endsOperand = true → Passes r s)) := by
  intro p s h
  unfold Reader.take at h
  split at h
  · rename_i eq
    cases h
    exact ⟨by rw [ahead, eq]; rfl, .refl, nofun⟩
  · rename_i t eq
    cases h
    -- A token that ends an operand is not the end of the text, at which a reader would stay.
    refine ⟨by rw [ahead, eq]; rfl, .refl, fun ends => ⟨.refl, fun ended => ?_⟩⟩
    simp only [eq, List.head?_cons, Option.map_some, Option.some.injEq] at ended
    rw [ended] at ends
    cases ends
  · rename_i t rest filled eq
    cases h
    have moves : Moves r { r with rest } :=
      ⟨by rw [eq]; exact List.suffix_cons _ _, fun _ => filled, rfl, rfl⟩
    exact ⟨by rw [ahead, eq]; rfl, moves, fun ends => ⟨moves, fun _ => ⟨[], _, eq, ends⟩⟩⟩

theorem expect {t : Token} {purpose : String} : Leaves (Reader.expect t purpose) r
    (fun _ s => Moves r s ∧ (t.endsOperand = true → Passes r s)) := by
  refine take.bind fun p s taken => ?_
  by_cases same : p.token = t
  · simp only [same, if_true]
    exact pure (same ▸ taken.2)
  · simp only [same, if_false]
    exact of_fails fails_refuse

theorem deeper {a : Around} : Leaves a.deeper r (fun _ s => s = r) := by
  unfold Around.deeper
  split
  · exact of_fails fails_tooDeep
  · exact pure rfl

theorem mention {name : String} {pos : Pos} : Leaves (Reader.mention name pos) r
    (fun _ s => Moves r s ∧ s.rest = r.rest) := by
  rintro _ _ ⟨⟩
  dsimp only
  split
  · exact ⟨.refl, rfl⟩
  · exact ⟨⟨List.suffix_refl _, id, rfl, rfl⟩, rfl⟩

end Leaves

theorem endsOperand_of_constant {t : Token} {v : Value} (h : constant? t = some v) :
    t.endsOperand = true := by
  unfold constant? at h
  split at h <;> first | rfl | cases h

theorem pieces_ne_nil {fuel : Nat} {a : Around} {acc : List Expr} :
    Leaves (pieces fuel a acc) r (fun es _ => es ≠ []) := by
  induction fuel generalizing a acc r with
  | zero => exact .of_fails fails_tooDeep
  | succ fuel ih =>
    rw [pieces]
    refine .behind fun b _ => .behind fun q _ => ?_
    split
    · refine .pure ?_
      split <;> simp
    · exact ih
    · exact .of_fails fails_refuse

/-! ## Readers of plain expressions -/

variable {known : String → Bool} {e left right root : Expr} {a : Around} {fuel : Nat}

/-- What is read is an operand, if it is plain. -/
def Leaves.Operand (known : String → Bool) (m : Reader Expr) (r : Reading) : Prop :=
  Leaves m r fun e s => e.isPlain known = true → Passes r s

/-- What is read goes on from the expression `root`, which is plain if the whole is. -/
def Leaves.From (known : String → Bool) (root : Expr) (m : Reader Expr) (r : Reading) : Prop :=
  Leaves m r fun e s => e.isPlain known = true →
    root.isPlain known = true ∧ (s = r ∨ Passes r s)

/-- What the readers do that have this fuel. -/
structure Operands (known : String → Bool) (fuel : Nat) : Prop where
  expression : ∀ {a r}, Leaves.Operand known (expression fuel a) r
  operation : ∀ {a least left r}, Leaves.From known left (operation fuel a least left) r
  operand : ∀ {a r}, Leaves.Operand known (operand fuel a) r
  primary : ∀ {a r}, Leaves.Operand known (primary fuel a) r
  steps : ∀ {a root opened r}, Leaves.From known root (steps fuel a root opened) r
  indexStep : ∀ {a root opened optional r},
    Leaves.From known root (indexStep fuel a root opened optional) r
  memberStep : ∀ {a root opened optional r},
    Leaves.From known root (memberStep fuel a root opened optional) r

theorem operands_zero : Operands known 0 where
  expression := .of_fails fails_tooDeep
  operation := .of_fails fails_tooDeep
  operand := .of_fails fails_tooDeep
  primary := .of_fails fails_tooDeep
  steps := .of_fails fails_tooDeep
  indexStep := .of_fails fails_tooDeep
  memberStep := .of_fails fails_tooDeep

/-- Behind an operand the reader goes on from it. -/
theorem Leaves.From.behind_operand {m : Reader Expr} (h : Leaves.From known root m s)
    (passes : root.isPlain known = true → Passes r s) :
    Leaves m s fun e u => e.isPlain known = true → Passes r u := by
  refine h.mono fun e u behind plain => ?_
  obtain ⟨plain_root, rest⟩ := behind plain
  exact (passes plain_root).goes_on rest

theorem leaves_expression (ih : Operands known fuel) :
    Leaves.Operand known (Parser.expression (fuel + 1) a) r := by
  rw [Leaves.Operand, Parser.expression]
  exact ih.operand.bind fun left s passes => ih.operation.behind_operand passes

/-- A combination of operands is plain only if they are. -/
theorem leaves_combine {op : Token} {pos : Pos} :
    Leaves (Parser.combine op left right pos) r (fun e s => e.isPlain known = true →
      left.isPlain known = true ∧ right.isPlain known = true ∧ s = r) := by
  unfold Parser.combine
  split
  · split
    · exact .behind fun l _ => .behind fun m _ => .pure nofun
    split
    · exact .behind fun l _ => .behind fun m _ => .pure nofun
    split
    · exact .pure nofun
    split <;> exact .pure fun plain => by simp_all [Expr.isPlain, plainExprs]
  · exact .pure fun plain => by simp_all [Expr.isPlain, plainExprs]

theorem leaves_operation {least : Nat} (ih : Operands known fuel) :
    Leaves.From known left (Parser.operation (fuel + 1) a least left) r := by
  have combined {op : Placed} {right : Expr} {s : Reading}
      (passes : right.isPlain known = true → Passes r s) :
      Leaves (do
        let a ← a.deeper
        operation fuel a least (← combine op.token left right op.pos)) s
        (fun e u => e.isPlain known = true → left.isPlain known = true ∧ (u = r ∨ Passes r u)) := by
    refine Leaves.deeper.bind ?_
    rintro b _ rfl
    refine (@leaves_combine _ known left right op.token op.pos).bind fun whole u plain_of => ?_
    refine ih.operation.mono fun e v behind plain => ?_
    obtain ⟨plain_whole, rest⟩ := behind plain
    obtain ⟨plain_left, plain_right, rfl⟩ := plain_of plain_whole
    exact ⟨plain_left, .inr ((passes plain_right).goes_on rest)⟩
  rw [Leaves.From, operation_succ]
  refine Leaves.peek.bind ?_
  rintro op _ ⟨-, rfl⟩
  dsimp only
  split
  · exact .pure fun plain => ⟨plain, .inl rfl⟩
  · refine Leaves.take.bind fun p s taken => ?_
    refine ih.operand.bind fun right u passes => ?_
    refine Leaves.peek.bind ?_
    rintro next _ ⟨-, rfl⟩
    have right_passes (plain : right.isPlain known = true) := taken.2.1.passes (passes plain)
    split
    · exact (ih.operation.behind_operand right_passes).bind fun right' v => combined
    · exact combined right_passes

theorem leaves_operand (ih : Operands known fuel) :
    Leaves.Operand known (Parser.operand (fuel + 1) a) r := by
  -- A sign is taken, and what is made of an operand behind it is plain only if that is.
  have signed {f : Expr → Reader Expr} (h : ∀ e s, Leaves (f e) s fun e' u =>
      u = s ∧ (e'.isPlain known = true → e.isPlain known = true)) :
      Leaves.Operand known (do
        let _ ← Reader.take
        f (← operand fuel (← a.deeper))) r := by
    refine Leaves.take.bind fun p s taken => ?_
    refine Leaves.deeper.bind ?_
    rintro b _ rfl
    refine ih.operand.bind fun e u passes => ?_
    refine (h e u).mono ?_
    rintro e' _ ⟨rfl, plain_of⟩ plain
    exact taken.2.1.passes (passes (plain_of plain))
  have made {e : Expr} {op : String} {p : Pos} {s : Reading} :
      Leaves (Pure.pure (.operator op [e] p) : Reader Expr) s fun e' u =>
        u = s ∧ (e'.isPlain known = true → e.isPlain known = true) :=
    .pure ⟨rfl, fun plain => by simpa [Expr.isPlain, plainExprs] using plain⟩
  rw [Leaves.Operand, Parser.operand]
  refine Leaves.peek.bind ?_
  rintro p _ ⟨-, rfl⟩
  split
  · refine signed fun e s => ?_
    split
    · split <;> exact .pure ⟨rfl, fun _ => rfl⟩
    · exact .pure ⟨rfl, fun _ => rfl⟩
    · exact made
  · refine signed fun e s => ?_
    split
    · exact .pure ⟨rfl, fun _ => rfl⟩
    · exact .pure ⟨rfl, fun _ => rfl⟩
    · exact made
  · exact signed fun _ _ => made
  · exact .of_fails fails_fail
  · exact ih.primary

/-- An expression that is not plain begins no plain one. -/
theorem Operands.refuses {opened : Bool} (ih : Operands known fuel)
    (other : root.isPlain known ≠ true) :
    Leaves (Parser.steps fuel a root opened) s fun e u => e.isPlain known = true → Passes r u :=
  ih.steps.mono fun _ _ behind plain => absurd (behind plain).1 other

theorem leaves_closure {params : List String} {pos : Pos} :
    Leaves (closure fuel a params pos) r fun e _ => e.isPlain known ≠ true := by
  cases fuel with
  | zero => exact .of_fails fails_tooDeep
  | succ fuel =>
    rw [closure]
    exact .behind fun _ _ => .behind fun _ _ => .behind fun _ _ => .behind fun _ _ =>
      .behind fun _ _ => .behind fun _ _ => .pure Bool.false_ne_true

/-- A call is not plain; what is read of another name is left to `otherwise`. -/
theorem leaves_called (ih : Operands known fuel) {name : String} {s : Reading}
    {otherwise : Placed → Reader Expr} {pos : Pos}
    (h : ∀ p, Leaves (otherwise p) s fun e u => e.isPlain known = true → Passes r u) :
    Leaves (do
      let p ← Reader.peek
      match p.token with
      | .sign "(" => do
        let _ ← Reader.take
        let args ← arguments fuel (← a.deeper).inner name []
        steps fuel a (.call name args pos) false
      | .sign "()" => do
        let _ ← Reader.take
        steps fuel a (.call name [] pos) false
      | _ => otherwise p) s fun e u => e.isPlain known = true → Passes r u := by
  refine Leaves.peek.bind ?_
  rintro p _ ⟨-, rfl⟩
  split
  · exact .behind fun _ _ => .behind fun _ _ => .behind fun _ _ => ih.refuses Bool.false_ne_true
  · exact .behind fun _ _ => ih.refuses Bool.false_ne_true
  · exact h p

theorem leaves_primary (ih : Operands known fuel) :
    Leaves.Operand known (Parser.primary (fuel + 1) a) r := by
  have nested {f : Around → Reader Stmt} {b : Around} :
      Leaves.Operand known (do
        let s ← f (← b.deeper)
        steps fuel a (.statement s) false) r :=
    .behind fun _ _ => .behind fun _ _ => ih.refuses Bool.false_ne_true
  rw [Leaves.Operand, Parser.primary]
  refine Leaves.peek.bind ?_
  rintro p _ ⟨here, rfl⟩
  cases constant : constant? p.token with
  | some v =>
    refine Leaves.take.bind fun p' s taken => ?_
    obtain ⟨rfl, -, passes⟩ := taken
    rw [← here] at passes
    exact ih.steps.behind_operand fun _ => passes (endsOperand_of_constant constant)
  | none =>
    dsimp only
    split
    case h_1 => exact nested
    case h_2 =>
      refine Leaves.take.bind fun _ s taken => ?_
      refine Leaves.deeper.bind ?_
      rintro b _ rfl
      refine Leaves.deeper.bind ?_
      rintro b' _ rfl
      refine ih.expression.bind fun e u passes => ?_
      refine Leaves.expect.bind fun _ v closed => ?_
      exact ih.steps.behind_operand fun plain =>
        (taken.2.1.trans (passes plain).toMoves).passes (closed.2 rfl)
    case h_3 => exact nested
    case h_4 => exact nested
    case h_5 => exact nested
    case h_6 => exact nested
    case h_7 => exact nested
    case h_8 => exact nested
    case h_9 =>
      split
      · exact .of_fails fails_fail.bind
      · exact .behind fun _ _ => .behind fun _ _ => leaves_closure.bind fun _ _ => ih.refuses
    case h_10 => exact .behind fun _ _ => leaves_closure.bind fun _ _ => ih.refuses
    case h_11 text =>
      refine .behind fun _ _ => .behind fun _ _ => pieces_ne_nil.bind fun parts s filled => ?_
      have row : parts.isEmpty = false := by simpa using filled
      simp only [row]
      exact ih.refuses Bool.false_ne_true
    case h_12 => exact .behind fun _ _ => .behind fun _ _ => .behind fun _ _ => ih.refuses Bool.false_ne_true
    case h_13 => exact .behind fun _ _ => .behind fun _ _ => .behind fun _ _ => ih.refuses Bool.false_ne_true
    case h_14 name spelled =>
      refine Leaves.take.bind fun p' s taken => ?_
      obtain ⟨rfl, -, passes⟩ := taken
      rw [← here, spelled] at passes
      refine leaves_called ih fun _ => Leaves.mention.bind fun _ u moved => ?_
      exact ih.steps.behind_operand fun _ => (passes rfl).moved moved.1 moved.2
    case h_15 word spelled =>
      refine Leaves.take.bind fun p' s taken => ?_
      split
      · split
        · exact ih.refuses Bool.false_ne_true
        · exact .of_fails fails_fail
      · split
        · exact leaves_called ih fun _ => .of_fails fails_fail
        · exact .of_fails fails_fail
    case h_16 => exact .of_fails fails_fail
    case h_17 => exact .of_fails fails_refuse

theorem leaves_steps {opened : Bool} (ih : Operands known fuel) :
    Leaves.From known root (Parser.steps (fuel + 1) a root opened) r := by
  rw [Leaves.From, Parser.steps]
  refine Leaves.peek.bind ?_
  rintro p _ ⟨-, rfl⟩
  split
  · exact ih.indexStep
  · exact ih.indexStep
  · exact ih.memberStep
  · exact ih.memberStep
  · exact .pure fun plain => ⟨plain, .inl rfl⟩

/-- A chain with one step more is plain only if what it begins with and the step are. -/
theorem plain_of_addStep {opened : Bool} {step : Step}
    (h : (addStep root opened step).isPlain known = true) :
    root.isPlain known = true ∧ plainSteps known [step] = true := by
  have split (ss : List Step) (h : plainSteps known (ss ++ [step]) = true) :
      plainSteps known ss = true ∧ plainSteps known [step] = true := by
    induction ss with
    | nil => exact ⟨rfl, h⟩
    | cons s rest ih =>
      cases s <;> simp_all [plainSteps]
  unfold addStep at h
  split at h
  · rw [Expr.isPlain, Bool.and_eq_true] at h
    rw [Expr.isPlain, h.1, (split _ h.2).1]
    exact ⟨rfl, (split _ h.2).2⟩
  · rwa [Expr.isPlain, Bool.and_eq_true] at h

theorem leaves_indexStep {opened optional : Bool} (ih : Operands known fuel) :
    Leaves.From known root (Parser.indexStep (fuel + 1) a root opened optional) r := by
  rw [Leaves.From, Parser.indexStep]
  refine Leaves.take.bind fun p s taken => ?_
  refine Leaves.deeper.bind ?_
  rintro b _ rfl
  refine ih.expression.bind fun index u passes => ?_
  have closing {pos : Pos} : Leaves (do
      let _ ← Reader.expect (.sign "]") "for a matching [ in this index expression"
      steps fuel a (addStep root opened (.index index pos optional)) true) u fun e v =>
        e.isPlain known = true → root.isPlain known = true ∧ (v = r ∨ Passes r v) := by
    refine Leaves.expect.bind fun _ v closed => ih.steps.mono fun e w behind plain => ?_
    obtain ⟨plain_chain, rest⟩ := behind plain
    obtain ⟨plain_root, plain_step⟩ := plain_of_addStep plain_chain
    have plain_index : index.isPlain known = true := by
      simpa [plainSteps] using plain_step
    have inside := (taken.2.1.trans (passes plain_index).toMoves).passes (closed.2 rfl)
    exact ⟨plain_root, .inr (inside.goes_on rest)⟩
  split
  · exact .of_fails fails_fail.bind
  · split
    · exact .of_fails fails_fail.bind
    · exact closing

theorem leaves_member {opened optional : Bool} (ih : Operands known fuel) {m : String} {n : Placed}
    {u : Reading} (inside : Passes r u) :
    Leaves (do
      match (← Reader.peek).token with
      | .sign "(" => do
        let _ ← Reader.take
        let args ← arguments fuel (← a.deeper).inner m []
        steps fuel a (addStep root opened (.method m args n.pos optional)) true
      | .sign "()" => do
        let _ ← Reader.take
        steps fuel a (addStep root opened (.method m [] n.pos optional)) true
      | _ => do
        if methodWords.contains m then Reader.fail (Reader.reservedReason m) n.pos
        steps fuel a (addStep root opened (.property m n.pos optional)) true) u fun e v =>
        e.isPlain known = true → root.isPlain known = true ∧ (v = r ∨ Passes r v) := by
  have method {args : List Expr} {v : Reading} :
      Leaves (steps fuel a (addStep root opened (.method m args n.pos optional)) true) v
        fun e w => e.isPlain known = true → root.isPlain known = true ∧ (w = r ∨ Passes r w) :=
    ih.steps.mono fun e w behind plain => absurd (plain_of_addStep (behind plain).1).2 nofun
  refine Leaves.peek.bind ?_
  rintro p _ ⟨-, rfl⟩
  split
  · exact .behind fun _ _ => .behind fun _ _ => .behind fun _ _ => method
  · exact .behind fun _ _ => method
  · split
    · exact .of_fails fails_fail.bind
    · refine ih.steps.mono fun e w behind plain => ?_
      obtain ⟨plain_chain, rest⟩ := behind plain
      exact ⟨(plain_of_addStep plain_chain).1, .inr (inside.goes_on rest)⟩

theorem leaves_memberStep {opened optional : Bool} (ih : Operands known fuel) :
    Leaves.From known root (Parser.memberStep (fuel + 1) a root opened optional) r := by
  rw [Leaves.From, Parser.memberStep]
  refine Leaves.take.bind fun p s taken => ?_
  refine Leaves.take.bind fun n u taken' => ?_
  have inside (ends : n.token.endsOperand = true) : Passes r u :=
    taken.2.1.passes (taken'.2.2 ends)
  cases spelled : n.token with
  | name m => exact leaves_member ih (inside (by rw [spelled]; rfl))
  | reserved word =>
    dsimp only
    by_cases method : methodWords.contains word = true
    · rw [if_pos method]
      exact leaves_member ih (inside (by rw [spelled]; rfl))
    · rw [if_neg method]
      exact .of_fails fails_fail
  | _ => exact .of_fails fails_refuse

theorem operands (known : String → Bool) (fuel : Nat) : Operands known fuel := by
  induction fuel with
  | zero => exact operands_zero
  | succ fuel ih =>
    exact ⟨leaves_expression ih, leaves_operation ih, leaves_operand ih, leaves_primary ih,
      leaves_steps ih, leaves_indexStep ih, leaves_memberStep ih⟩

end Parser

namespace Lexer

/-! ## What stands behind the last token -/

/-- The gap behind the last token of a text. -/
def lastGap (s : State) (cs : List Char) : List Char :=
  if s.inText then
    let (t, p, rest) := ofQuote s.pos (verbatim s.pos s.pos cs)
    if rest.length < cs.length then lastGap (s.behind t.token p) rest else []
  else
    match skipGap .space s.pos cs with
    | (_, []) => cs
    | (p, c :: r) =>
      let (t, q, rest) := token s.operand p c r
      if rest.length < cs.length then lastGap (s.behind t.token q) rest else []
  termination_by cs.length

/-- Nothing but white space stands behind the last token of a text. -/
def EndsBlank (text : String) : Prop :=
  (lastGap ⟨Pos.start, false, [], false⟩ text.toList).all Text.isBlank = true

instance (text : String) : Decidable (EndsBlank text) :=
  inferInstanceAs (Decidable (_ = true))

/-- The end of a text is the last token of its row. -/
theorem eq_nil_of_ended {s : State} {cs : List Char} {before behind : List Placed} {t : Placed}
    (row : scan s cs = before ++ t :: behind) (ended : t.token = .ended) : behind = [] := by
  have single {u : Placed} {before : List Placed} (eq : [u] = before ++ t :: behind) :
      behind = [] := by
    have count := congrArg List.length eq
    simp only [List.length_cons, List.length_nil, List.length_append] at count
    exact List.length_eq_zero_iff.1 (by omega)
  have later {u : Placed} {s : State} {cs : List Char} {before : List Placed}
      (other : u.token ≠ .ended) (eq : u :: scan s cs = before ++ t :: behind) :
      ∃ before', scan s cs = before' ++ t :: behind := by
    cases before with
    | nil =>
      rw [List.nil_append, List.cons.injEq] at eq
      exact absurd (eq.1 ▸ ended) other
    | cons v before =>
      rw [List.cons_append, List.cons.injEq] at eq
      exact ⟨before, eq.2⟩
  fun_induction scan s cs generalizing before with
  | case2 | case3 | case4 | case6 => exact single row
  | case1 s cs inText u p r' read short ih =>
    have other := ofQuote_ne_ended s.pos (verbatim s.pos s.pos cs)
    rw [read] at other
    obtain ⟨before', row'⟩ := later other row
    exact ih row'
  | case5 s cs outside p c r skipped u q r' read short good ih =>
    have other := (rest_token s.operand p c r).2
    rw [read] at other
    obtain ⟨before', row'⟩ := later other row
    exact ih row'

theorem getLast?_of_cons {α : Type} {P : α → Prop} {a : α} {as : List α}
    (h : ∀ b ∈ (a :: as).getLast?, P b) : ∀ b ∈ as.getLast?, P b := by
  cases as with
  | nil => simp
  | cons c rest => rwa [List.getLast?_cons_cons] at h

/-- In a text whose tokens end an operand, a back-tick string is closed. -/
theorem ne_bad_of_last {s : State} {cs r' : List Char} {t : Placed} {p : Pos} {ts : List Token}
    (read : ofQuote s.pos (verbatim s.pos s.pos cs) = (t, p, r'))
    (alone : t.token :: (scan (s.behind t.token p) r').map (·.token) = ts ++ [.ended])
    (last : ∀ t ∈ ts.getLast?, t.endsOperand = true) (reason : String) :
    t.token ≠ .bad reason := by
  intro bad
  have nothing : r' = [] := by
    cases quote : verbatim s.pos s.pos cs with
    | closed text q rest | opened text q rest =>
      rw [quote] at read
      cases read
      cases bad
    | broken reason q =>
      rw [quote] at read
      cases read
      rfl
  obtain ⟨us, rfl, others⟩ := exists_cons_of_alone alone
  rw [nothing, scan_nil (inText_behind (by rw [bad]; rfl) p)] at others
  obtain rfl := eq_nil_of_single others
  have ends := last t.token rfl
  rw [bad] at ends
  cases ends

theorem not_endsOperand_of_pointed {s : State} {operand : Bool} {c : Char} {r r' : List Char}
    {t : Token} {ts : List Token} {q : Pos} (pointed : IsPointed operand c r t r')
    (alone : (scan (s.behind t q) r').map (·.token) = ts ++ [.ended]) :
    ¬∀ u ∈ (t :: ts).getLast?, u.endsOperand = true := by
  intro last
  obtain ⟨⟨rfl, plain⟩, -⟩ := pointed
  obtain ⟨u, p, eq, point⟩ := scan_cons (t := .sign ".") (inText_behind plain.1 q) isGap_nil
    (fun p => ⟨p, skipGap_visible (c := '.') (by decide) (by decide) p []⟩)
    (fun _ => ⟨_, _, rfl, rfl⟩) (by simp) (by decide)
  replace eq : scan (s.behind t q) ['.'] =
      u :: scan ((s.behind t q).behind (.sign ".") p) [] := eq
  rw [eq, List.map_cons, scan_nil (inText_behind rfl p), point] at alone
  obtain rfl : [Token.sign "."] = ts := List.append_cancel_right alone
  exact absurd (last (.sign ".") rfl) (by decide)

theorem not_endsOperand_of_half {s : State} {operand : Bool} {c : Char} {r r' : List Char}
    {t : Placed} {ts : List Token} {p q : Pos} (half : c :: r ∈ halves)
    (read : token operand p c r = (t, q, r'))
    (alone : (scan (s.behind t.token q) r').map (·.token) = ts ++ [.ended]) :
    ¬∀ u ∈ (t.token :: ts).getLast?, u.endsOperand = true := by
  intro last
  have sign : (t.token = .sign "(" ∨ t.token = .sign "*") ∧ r' = [] := by
    simp only [halves, List.mem_cons, List.not_mem_nil, or_false, List.cons.injEq] at half
    rcases half with ⟨rfl, rfl⟩ | ⟨rfl, rfl⟩ <;> cases read
    · exact ⟨.inl rfl, rfl⟩
    · exact ⟨.inr rfl, rfl⟩
  obtain ⟨signs, rfl⟩ := sign
  have plain : isBrace t.token = false := by
    rcases signs with eq | eq <;> rw [eq] <;> rfl
  rw [scan_nil (inText_behind plain q)] at alone
  obtain rfl : [] = ts := @List.append_cancel_right _ [] _ _ alone
  have ends := last t.token rfl
  rcases signs with eq | eq <;> rw [eq] at ends <;> exact absurd ends (by decide)

/-- If the last token ends an operand, a parenthesis can be put behind a text. -/
theorem scan_enclosed {s s₁ : State} {cs : List Char} {ts : List Token} (agrees : s.Agrees s₁)
    (line : '\n' ∉ cs) (alone : (scan s cs).map (·.token) = ts ++ [.ended])
    (blank : (lastGap s cs).all Text.isBlank = true)
    (last : ∀ t ∈ ts.getLast?, t.endsOperand = true) :
    (scan s₁ (cs ++ [')'])).map (·.token) = ts ++ [.sign ")", .ended] := by
  fun_induction scan s cs generalizing s₁ ts with
  | case1 s cs inText t p r' read short ih =>
    have good := ne_bad_of_last read alone last
    obtain ⟨us, rfl, others⟩ := exists_cons_of_alone alone
    have line' : '\n' ∉ r' := by
      have suffix := rest_verbatim s.pos s.pos cs
      rw [← rest_ofQuote s.pos, read] at suffix
      exact fun h => line (suffix.subset h)
    rw [lastGap, if_pos inText, read] at blank
    dsimp only at blank
    rw [if_pos short] at blank
    obtain ⟨t', q', read', same⟩ := ofQuote_of_extends s₁.pos
        (extends_verbatim s.pos s₁.pos s.pos s₁.pos cs []) read good
    rw [scan_text (agrees.inText.symm.trans inText) read' (by simp; omega), List.map_cons, same,
      ih (agrees.behind t.token p q') line' others blank (getLast?_of_cons last)]
    rfl
  | case2 s cs inText t p r' read long =>
    have other := ofQuote_ne_ended s.pos (verbatim s.pos s.pos cs)
    rw [read] at other
    have end_ := congrArg List.getLast? alone
    simp [other] at end_
  | case3 s cs outside p skipped =>
    obtain rfl : ts = [] := by simpa using alone
    rw [Bool.not_eq_true] at outside
    have outside₁ : s₁.inText = false := agrees.inText.symm.trans outside
    rw [lastGap, outside, if_neg (by decide), skipped] at blank
    obtain ⟨t, q, eq, same⟩ := @scan_closing s₁ _ [] outside₁ (isGap_blank blank) [')']
      (fun p => ⟨p, skipGap_visible (by decide) (by decide) p []⟩) (by simp)
    rw [eq, List.map_cons, scan_nil rfl, same]
    rfl
  | case4 s cs outside p c r skipped t q r' read reason bad =>
    have end_ := congrArg List.getLast? alone
    simp [bad] at end_
  | case5 s cs outside p c r skipped t q r' read short good ih =>
    rw [Bool.not_eq_true] at outside
    have outside₁ : s₁.inText = false := agrees.inText.symm.trans outside
    have line' : '\n' ∉ c :: r := by
      have suffix := rest_skipGap .space s.pos cs
      rw [skipped] at suffix
      exact fun h => line (suffix.subset h)
    have line'' : '\n' ∉ r' := by
      have suffix := (rest_token s.operand p c r).1
      rw [read] at suffix
      exact fun h => line' (suffix.subset h)
    obtain ⟨us, rfl, others⟩ := exists_cons_of_alone alone
    rw [lastGap, outside, if_neg (by decide), skipped] at blank
    simp only [read, if_pos short] at blank
    obtain isLocal | pointed | half := token_append line' read good
    · obtain ⟨t₁, q₁, eq, same⟩ := scan_cons outside₁ isGap_nil
        (fun p => skipGap_append_cons skipped p []) (fun p => agrees.operand ▸ isLocal p []) good
        (by simp; omega)
      rw [List.nil_append] at eq
      rw [eq, List.map_cons, same, ih (agrees.behind t.token q q₁) line'' others blank
        (getLast?_of_cons last)]
      rfl
    · exact absurd last (not_endsOperand_of_pointed pointed others)
    · exact absurd last (not_endsOperand_of_half half read others)
  | case6 s cs outside p c r skipped t q r' read long good =>
    have other := (rest_token s.operand p c r).2
    rw [read] at other
    have end_ := congrArg List.getLast? alone
    simp [other] at end_

/-! ## What begins a text -/

theorem mem_of_firstSign {cs r : List Char} {known : List String} {sign : String}
    (h : firstSign cs known = some (sign, r)) : sign ∈ known ∧ sign.toList <+: cs := by
  induction known with
  | nil => cases h
  | cons other more ih =>
    rw [firstSign] at h
    split at h
    · rename_i found
      cases h
      exact ⟨List.mem_cons_self, List.isPrefixOf_iff_prefix.1 found⟩
    · exact ⟨List.mem_cons_of_mem other (ih h).1, (ih h).2⟩

/-- The signs that begin with a star. -/
def stars : List String := ["**=", "*=", "**", "*"]

theorem token_star (operand : Bool) (p : Pos) (r : List Char) :
    (∃ sign ∈ stars, (token operand p '*' r).1.token = .sign sign) ∨
      ∃ reason, (token operand p '*' r).1.token = .bad reason := by
  have table : ∀ sign ∈ signs, sign.toList.head? = some '*' → sign ∈ "*)" :: stars := by decide
  rw [token, if_neg (by decide), if_neg (by decide), if_neg (by decide), if_neg (by decide),
    if_neg (by decide), if_neg (by simp), if_neg (by simp), if_neg (by simp)]
  split
  · rename_i sign rest found
    obtain ⟨known, before⟩ := mem_of_firstSign found
    have first : sign.toList.head? = some '*' := by
      have filled : ∀ sign ∈ signs, sign.toList ≠ [] := by decide
      obtain ⟨c, more, eq⟩ := List.exists_cons_of_ne_nil (filled sign known)
      rw [eq, List.cons_prefix_cons] at before
      rw [eq, before.1]
      rfl
    split
    · exact .inr ⟨_, rfl⟩
    · rename_i plain
      rcases List.mem_cons.1 (table sign known first) with rfl | star
      · exact absurd (by decide) plain
      · exact .inl ⟨sign, star, rfl⟩
  · exact .inr ⟨_, rfl⟩
end Lexer

namespace Parser

variable {limit fuel : Nat} {a : Around} {e : Expr} {r : Reading} {known : String → Bool}
  {text : String}

/-- No expression begins with a star. -/
theorem ne_ok_of_star {p : Placed} {ps : List Placed}
    (star : (∃ sign ∈ Lexer.stars, p.token = .sign sign) ∨ ∃ reason, p.token = .bad reason) :
    expression (fuel + 3) a ⟨p :: ps, [], [], []⟩ ≠ .ok (e, r) := by
  intro read
  rw [expression] at read
  obtain ⟨left, s, first, -⟩ := ok_of_bind read
  have peeked : Reader.peek ⟨p :: ps, [], [], []⟩ = .ok (p, ⟨p :: ps, [], [], []⟩) := rfl
  rw [operand, bind_of_ok peeked] at first
  rcases star with ⟨sign, known, hp⟩ | ⟨reason, hp⟩
  · rw [hp] at first
    simp only [Lexer.stars, List.mem_cons, List.not_mem_nil, or_false] at known
    rcases known with rfl | rfl | rfl | rfl <;>
    · replace first : primary (fuel + 1) a ⟨p :: ps, [], [], []⟩ = .ok (left, s) := first
      rw [primary, bind_of_ok peeked, hp] at first
      exact fails_refuse _ _ _ first
  · rw [hp] at first
    replace first : primary (fuel + 1) a ⟨p :: ps, [], [], []⟩ = .ok (left, s) := first
    rw [primary, bind_of_ok peeked, hp] at first
    exact fails_refuse _ _ _ first

theorem head_of_readExpression (h : readExpression limit text = .ok (e, r)) :
    ∃ c cs, text.toList = c :: cs ∧ c ≠ '*' ∧ c ≠ ')' := by
  obtain ⟨read, -⟩ := ok_of_readExpression h
  obtain ⟨k, fuel⟩ : ∃ k, fuelFor (tokens text) = k + 3 :=
    ⟨fuelFor (tokens text) - 3, by unfold fuelFor; omega⟩
  rw [fuel] at read
  obtain ⟨p, ps, placed⟩ : ∃ p ps, tokens text = p :: ps :=
    List.exists_cons_of_ne_nil (Lexer.scan_ne_nil _ _)
  rw [placed] at read
  rw [tokens] at placed
  have row := congrArg (List.map (·.token)) placed
  cases chars : text.toList with
  | nil =>
    rw [chars, Lexer.scan_nil rfl, List.map_cons, List.cons.injEq] at row
    exact absurd read (ne_ok_of_closing (.inl row.1.symm))
  | cons c cs =>
    rw [chars] at row
    have visible (hc : c ≠ '/') (hb : Text.isBlank c = false) :
        (Lexer.token false Pos.start c cs).1.token = p.token :=
      Lexer.token_of_row rfl (Lexer.skipGap_visible hb hc _ cs) row
    refine ⟨c, cs, rfl, ?_, ?_⟩
    · rintro rfl
      have first := visible (by decide) (by decide)
      have star := Lexer.token_star false Pos.start cs
      rw [first] at star
      exact ne_ok_of_star star read
    · rintro rfl
      have first := visible (by decide) (by decide)
      exact ne_ok_of_closing (.inr first.symm) read

/-- A plain expression by itself ends by itself if no comment is behind it, and leaves no trace. -/
theorem isTerminated_of_plain (h : readExpression limit text = .ok (e, r))
    (plain : e.isPlain known = true) (line : '\n' ∉ text.toList) (blank : Lexer.EndsBlank text) :
    IsTerminated text ∧ r.vars = [] ∧ r.functions = [] := by
  obtain ⟨read, ended⟩ := ok_of_readExpression h
  have passes := (operands known _).expression _ _ read plain
  obtain ⟨x, behind, rest⟩ := List.exists_cons_of_ne_nil (passes.filled (Lexer.scan_ne_nil _ _))
  rw [rest, List.headD_cons] at ended
  obtain ⟨taken, t, row, ends⟩ := passes.last (by rw [rest, List.head?_cons, Option.map_some, ended])
  rw [rest] at row
  replace row : tokens text = (taken ++ [t]) ++ x :: behind := by
    rw [List.append_assoc]
    exact row
  obtain rfl := Lexer.eq_nil_of_ended row ended
  have alone : (tokens text).map (·.token) = (taken ++ [t]).map (·.token) ++ [.ended] := by
    rw [row, List.map_append, List.map_singleton, ended]
  have own : tokensOf text = (taken ++ [t]).map (·.token) := by
    rw [tokensOf, alone, List.dropLast_concat]
  have last : ∀ u ∈ (tokensOf text).getLast?, u.endsOperand = true := by
    rw [own, List.map_append, List.map_singleton, List.getLast?_concat]
    rintro u ⟨⟩
    exact ends
  have closed : ∀ u ∈ openers, u.endsOperand = false := by decide
  refine ⟨⟨own ▸ alone, ?_, fun u hu opener => ?_⟩, passes.vars, passes.functions⟩
  · obtain ⟨c, cs, chars, star, closing⟩ := head_of_readExpression h
    have whole : ("(" ++ text ++ ")").toList = '(' :: (text.toList ++ [')']) := by simp
    have opens (p : Pos) : ∃ u q, Lexer.token false p '(' (text.toList ++ [')']) =
        (u, q, text.toList ++ [')']) ∧ u.token = .sign "(" := by
      rw [chars]
      obtain ⟨q, token⟩ := Lexer.Lexes.token_opening_parenthesis star closing false p
      exact ⟨_, q, token, rfl⟩
    obtain ⟨u, q, eq, opening⟩ := Lexer.scan_cons (s := ⟨Pos.start, false, [], false⟩) rfl
      Lexer.isGap_nil (fun p => ⟨p, Lexer.skipGap_visible (c := '(') (by decide) (by decide) p _⟩)
      opens (by simp) (by simp)
    rw [List.nil_append] at eq
    have agrees : Lexer.State.Agrees ⟨Pos.start, false, [], false⟩
        (Lexer.State.behind ⟨Pos.start, false, [], false⟩ (.sign "(") q) := ⟨rfl, rfl, rfl⟩
    rw [tokens, whole, eq, List.map_cons, opening,
      Lexer.scan_enclosed agrees line (own ▸ alone) blank last]
    rfl
  · exact absurd (last u hu) (by simp [closed u opener])

end Parser

end Stencil.Script
