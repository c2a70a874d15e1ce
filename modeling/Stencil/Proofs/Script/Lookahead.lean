import Stencil.Proofs.Script.Containment.Expressions

/-!
# One token ahead

A reader looks at one token ahead of those that it takes, and no further: in front of other tokens
behind that one it comes to the same result, and leaves them.  Behind a closing brace it does not look
at all.
-/

namespace Stencil.Script

variable {α β : Type}

theorem peeked (r : Reading) :
    Reader.peek r = .ok (r.rest.headD ⟨.ended, Pos.start⟩, r) := rfl

/-- Up to the token that it stops in front of, `m` reads the same whatever is behind that token. -/
def Nearsighted (m : Reader α) : Prop :=
  ∀ r a s, m r = .ok (a, s) → ∃ front, r.rest = front ++ s.rest ∧
    ∀ t ts us, s.rest = t :: ts → ts ≠ [] → us ≠ [] →
      m { r with rest := front ++ t :: us } = .ok (a, { s with rest := t :: us })

namespace Nearsighted

variable {m : Reader α} {f : α → Reader β} {g : Reading → Reading} {t : Token}

theorem of_fails (h : Fails m) : Nearsighted m := fun r a s eq => absurd eq (h r a s)

theorem pure {a : α} : Nearsighted (Pure.pure a : Reader α) := by
  rintro r _ _ ⟨⟩
  refine ⟨[], rfl, fun t ts us _ _ _ => rfl⟩

theorem bind (first : Nearsighted m) (second : ∀ a, Nearsighted (f a)) :
    Nearsighted (m >>= f) := by
  intro r b s eq
  obtain ⟨a, r₁, eq₁, eq₂⟩ := ok_of_bind eq
  obtain ⟨front, whole, same⟩ := first r a r₁ eq₁
  obtain ⟨front', whole', same'⟩ := second a r₁ b s eq₂
  refine ⟨front ++ front', by rw [whole, whole', List.append_assoc], fun t ts us ahead long filled => ?_⟩
  -- The token that the first reader stops at is one of the second, or the one behind both.
  have step : m { r with rest := front ++ (front' ++ t :: us) } =
      .ok (a, { r₁ with rest := front' ++ t :: us }) := by
    rw [ahead] at whole'
    cases front' with
    | nil => exact same t ts us whole' long filled
    | cons u more => exact same u (more ++ t :: ts) (more ++ t :: us) whole' (by simp) (by simp)
  rw [List.append_assoc, bind_of_ok step]
  exact same' t ts us ahead long filled

theorem peek : Nearsighted Reader.peek := by
  rintro r _ _ ⟨⟩
  refine ⟨[], rfl, fun t ts us ahead _ _ => ?_⟩
  rw [ahead]
  rfl

theorem take : Nearsighted Reader.take := by
  intro r a s eq
  match rest : r.rest with
  | [] =>
    obtain ⟨-, rfl⟩ : _ ∧ r = s := by simpa [Reader.take, rest] using eq
    exact ⟨[], rest.symm, fun t ts us ahead => by simp [rest] at ahead⟩
  | [t] =>
    obtain ⟨-, rfl⟩ : _ ∧ r = s := by simpa [Reader.take, rest] using eq
    refine ⟨[], rest.symm, fun u us vs ahead long => ?_⟩
    rw [rest, List.cons.injEq] at ahead
    exact absurd ahead.2.symm long
  | t :: u :: more =>
    obtain ⟨rfl, rfl⟩ : t = a ∧ { r with rest := u :: more } = s := by
      simpa [Reader.take, rest] using eq
    exact ⟨[t], rfl, fun v vs us _ _ _ => rfl⟩

theorem accept : Nearsighted (Reader.accept t) := by
  refine bind peek fun p => ?_
  split
  · exact bind take fun _ => pure
  · exact pure

theorem expect {purpose : String} : Nearsighted (Reader.expect t purpose) := by
  refine bind take fun p => ?_
  split
  · exact pure
  · exact of_fails fails_refuse

theorem sees {ts : List Token} : Nearsighted (Reader.sees ts) := bind peek fun _ => pure

theorem variableName : Nearsighted Reader.variableName := by
  refine bind take fun p => ?_
  split
  · exact pure
  · exact of_fails fails_fail
  · exact of_fails fails_refuse

theorem deeper {a : Around} : Nearsighted a.deeper := by
  unfold Around.deeper
  split
  · exact of_fails fails_tooDeep
  · exact pure

/-! ## The rest of the state -/

/-- A change of the state that has nothing to do with the tokens ahead. -/
structure Aside (g : Reading → Reading) : Prop where
  rest : ∀ r, (g r).rest = r.rest
  apart : ∀ r ts, g { r with rest := ts } = { g r with rest := ts }

theorem aside (h : Aside g) : Nearsighted (modify g : Reader PUnit) := by
  rintro r _ _ ⟨⟩
  refine ⟨[], (h.rest r).symm, fun t ts us _ _ _ => ?_⟩
  rw [List.nil_append, ← h.apart]
  rfl

/-- What is read from the state is none of the tokens ahead. -/
theorem get_bind {f : Reading → Reader α} (h : ∀ r, Nearsighted (f r))
    (apart : ∀ r ts, f { r with rest := ts } = f r) : Nearsighted (get >>= f) := by
  intro r a s eq
  obtain ⟨front, whole, same⟩ := h r r a s eq
  refine ⟨front, whole, fun t ts us ahead long filled => ?_⟩
  have step : (get >>= f) { r with rest := front ++ t :: us } =
      f { r with rest := front ++ t :: us } { r with rest := front ++ t :: us } := rfl
  rw [step, apart]
  exact same t ts us ahead long filled

theorem get_set {f : Reading → PUnit → Reader α} (h : ∀ r, Nearsighted (f r ())) (hg : Aside g)
    (apart : ∀ r ts, f { r with rest := ts } () = f r ()) :
    Nearsighted (get >>= fun r => set (g r) >>= f r) := by
  intro r a s eq
  obtain ⟨front, whole, same⟩ := h r (g r) a s eq
  rw [hg.rest] at whole
  refine ⟨front, whole, fun t ts us ahead long filled => ?_⟩
  have step : (get >>= fun r => set (g r) >>= f r) { r with rest := front ++ t :: us } =
      f { r with rest := front ++ t :: us } () (g { r with rest := front ++ t :: us }) := rfl
  rw [step, apart, hg.apart]
  exact same t ts us ahead long filled

theorem enclosed (h : Nearsighted m) : Nearsighted (Reader.enclosed m) := by
  refine get_bind (fun r => ?_) fun r ts => rfl
  exact bind h fun a => bind (aside ⟨fun _ => rfl, fun _ _ => rfl⟩) fun _ => pure

theorem bind_variable {name : String} {constant : Bool} :
    Nearsighted (Reader.bind name constant) :=
  aside ⟨fun _ => rfl, fun _ _ => rfl⟩

theorem mention {name : String} {p : Pos} : Nearsighted (Reader.mention name p) := by
  refine aside ⟨fun r => ?_, fun r ts => ?_⟩
  · split <;> rfl
  · dsimp only
    split <;> rfl

theorem mentions {names : List (String × Pos)} :
    Nearsighted (forIn names PUnit.unit fun name _ => do
      Reader.mention name.1 name.2
      return ForInStep.yield PUnit.unit) := by
  induction names with
  | nil => exact pure
  | cons name more ih =>
    rw [List.forIn_cons]
    exact bind (bind mention fun _ => pure) fun step => by cases step <;> first | exact pure | exact ih

end Nearsighted

namespace Parser

open Nearsighted

/-- The readers with some fuel look one token ahead. -/
structure LooksAhead (fuel : Nat) : Prop where
  statement (a : Around) : Nearsighted (statement fuel a)
  result (a : Around) : Nearsighted (result fuel a)
  statements (a : Around) (acc : List Stmt) : Nearsighted (statements fuel a acc)
  block (a : Around) : Nearsighted (block fuel a)
  declaration (a : Around) (constant : Bool) : Nearsighted (declaration fuel a constant)
  branch (a : Around) : Nearsighted (branch fuel a)
  condition (a : Around) : Nearsighted (condition fuel a)
  whileLoop (a : Around) : Nearsighted (whileLoop fuel a)
  endless (a : Around) : Nearsighted (endless fuel a)
  doLoop (a : Around) : Nearsighted (doLoop fuel a)
  forLoop (a : Around) : Nearsighted (forLoop fuel a)
  attempt (a : Around) : Nearsighted (attempt fuel a)
  selection (a : Around) : Nearsighted (selection fuel a)
  cases (a : Around) (last : Option Pos) (acc : List Case) : Nearsighted (cases fuel a last acc)
  patternList (a : Around) (acc : List Expr) : Nearsighted (patternList fuel a acc)
  definition (p : Pos) : Nearsighted (definition fuel p)
  parameters (close : Token) (acc : List String) : Nearsighted (parameters fuel close acc)
  expression (a : Around) : Nearsighted (expression fuel a)
  operation (a : Around) (least : Nat) (left : Expr) : Nearsighted (operation fuel a least left)
  operand (a : Around) : Nearsighted (operand fuel a)
  primary (a : Around) : Nearsighted (primary fuel a)
  steps (a : Around) (root : Expr) (opened : Bool) : Nearsighted (steps fuel a root opened)
  indexStep (a : Around) (root : Expr) (opened optional : Bool) :
    Nearsighted (indexStep fuel a root opened optional)
  memberStep (a : Around) (root : Expr) (opened optional : Bool) :
    Nearsighted (memberStep fuel a root opened optional)
  arguments (a : Around) (function : String) (acc : List Expr) :
    Nearsighted (arguments fuel a function acc)
  items (a : Around) (acc : List Expr) : Nearsighted (items fuel a acc)
  fields (a : Around) (acc : List Field) : Nearsighted (fields fuel a acc)
  pieces (a : Around) (acc : List Expr) : Nearsighted (pieces fuel a acc)
  closure (a : Around) (params : List String) (p : Pos) : Nearsighted (closure fuel a params p)

variable {fuel : Nat} {a : Around}

/-- The rest of a definition behind the parameters of the function. -/
def bodyBehind (fuel : Nat) (p : Pos) (name : String) (params : List String) : Reader Stmt := do
  let q ← Reader.peek
  if q.token ≠ .sign "\x7b" then
    Reader.refuse ("Expecting body statement block for function '" ++ name ++ "'") q
  let outer ← get
  set { outer with vars := params.reverse.map (·, false), free := [] }
  let body ← block fuel ⟨false, false, true, false, 0, functionLimit⟩
  modify fun r => { r with vars := outer.vars, free := outer.free }
  let known := (← get).functions
  if known.any fun f => f.name = name && f.params.length = params.length then
    Reader.fail (redefined name params.length) q.pos
  modify fun r => { r with functions := ⟨name, params, body⟩ :: r.functions }
  return .skip p

/-! ## Small readers -/

theorem nearsighted_noBlock : Nearsighted noBlock := by
  refine bind peek fun p => ?_
  split
  · exact of_fails fails_fail
  · exact pure

theorem nearsighted_noAssignment : Nearsighted noAssignment := by
  refine bind peek fun p => ?_
  split
  · exact of_fails fails_fail
  · split
    · exact of_fails fails_fail
    · exact pure

theorem nearsighted_asCondition {e : Expr} : Nearsighted (asCondition e) := by
  unfold asCondition
  split
  · exact pure
  · exact of_fails fails_refused

theorem nearsighted_combine {op : Token} {left right : Expr} {p : Pos} :
    Nearsighted (combine op left right p) := by
  have joined (f : Expr → Expr → Expr) : Nearsighted (do
      return f (← asCondition left) (← asCondition right)) :=
    bind nearsighted_asCondition fun _ => bind nearsighted_asCondition fun _ => pure
  unfold combine
  split
  · split
    · exact joined fun l r => .either l r p
    · split
      · exact joined fun l r => .both l r p
      · split
        · exact pure
        · split <;> exact pure
  · exact pure

theorem nearsighted_pattern {e : Expr} : Nearsighted (pattern e) := by
  unfold pattern
  split
  · exact pure
  · exact of_fails fails_fail

theorem nearsighted_patterns {es : List Expr} : Nearsighted (es.mapM pattern) := by
  induction es with
  | nil => exact pure
  | cons e more ih =>
    rw [List.mapM_cons]
    exact bind nearsighted_pattern fun _ => bind ih fun _ => pure

theorem nearsighted_loopNames : Nearsighted loopNames := by
  refine bind accept fun found => ?_
  split
  · refine bind variableName fun name => bind expect fun _ => bind variableName fun counter => ?_
    dsimp only
    split
    · exact of_fails fails_fail.bind
    · exact bind expect fun _ => pure
  · exact bind variableName fun _ => pure

theorem nearsighted_assignment {op : Option String} {target value : Expr} {p : Pos} :
    Nearsighted (assignment op target value p) := by
  refine get_bind (fun r => ?_) fun r ts => rfl
  dsimp only
  split
  · split
    · exact of_fails fails_fail
    · exact pure
  · split
    · split
      · exact pure
      · exact pure
      · exact of_fails fails_fail
    · exact of_fails fails_fail
  · exact pure
  · exact of_fails fails_fail
  · exact of_fails fails_fail

/-! ## Statements -/

variable (ih : LooksAhead fuel)

include ih

theorem nearsighted_statement : Nearsighted (statement (fuel + 1) a) := by
  have nested {m : Around → Reader Stmt} (h : ∀ b, Nearsighted (m b)) : Nearsighted (a.deeper >>= m) :=
    bind deeper h
  rw [statement]
  refine bind peek fun p => ?_
  split
  case h_1 => exact pure
  case h_2 => exact bind take fun _ => pure
  case h_3 => exact nested ih.block
  case h_4 =>
    split
    · exact ih.definition p.pos
    · exact of_fails fails_fail
  case h_5 =>
    split
    · refine bind take fun _ => bind peek fun q => ?_
      split
      · exact ih.definition q.pos
      · exact of_fails fails_refuse
    · exact of_fails fails_fail
  case h_6 => exact nested ih.branch
  case h_7 => exact nested ih.selection
  case h_8 => exact nested ih.whileLoop
  case h_9 => exact nested ih.endless
  case h_10 => exact nested ih.doLoop
  case h_11 => exact nested ih.forLoop
  case h_12 =>
    split
    · exact bind take fun _ => pure
    · exact of_fails fails_fail
  case h_13 =>
    split
    · refine bind take fun _ => bind sees fun found => ?_
      split
      · exact pure
      · exact bind (ih.expression a.inner) fun _ => pure
    · exact of_fails fails_fail
  case h_14 => exact bind take fun _ => bind (ih.result a) fun _ => pure
  case h_15 => exact bind take fun _ => bind (ih.result a) fun _ => pure
  case h_16 => exact nested ih.attempt
  case h_17 => exact ih.declaration a.inner false
  case h_18 => exact ih.declaration a.inner true
  case h_19 =>
    refine bind take fun _ => bind deeper fun b => bind (ih.expression b) fun path => ?_
    refine bind accept fun found => ?_
    split
    · exact bind variableName fun _ => pure
    · exact pure
  case h_20 =>
    split
    · refine bind take fun _ => bind variableName fun name => bind accept fun found => ?_
      dsimp only
      split
      · exact bind variableName fun _ => bind mention fun _ => pure
      · exact bind mention fun _ => pure
    · exact of_fails fails_fail
  case h_21 =>
    refine bind (ih.expression a.inner) fun target => bind peek fun q => ?_
    split
    · exact bind take fun _ => bind (ih.expression a.inner) fun _ => nearsighted_assignment
    · split
      · exact bind take fun _ => bind (ih.expression a.inner) fun _ => nearsighted_assignment
      · exact pure

theorem nearsighted_result : Nearsighted (result (fuel + 1) a) := by
  rw [result]
  refine bind sees fun found => ?_
  split
  · exact pure
  · refine bind sees fun found => ?_
    split
    · exact pure
    · exact bind (ih.expression a.inner) fun _ => pure

theorem nearsighted_statements {acc : List Stmt} : Nearsighted (statements (fuel + 1) a acc) := by
  rw [statements]
  refine bind accept fun closed => ?_
  split
  · exact pure
  · refine bind peek fun p => ?_
    split
    · exact of_fails fails_fail
    · refine bind (ih.statement a) fun s => ?_
      split
      · exact ih.statements a acc
      · refine bind accept fun closed => ?_
        split
        · exact pure
        · split
          · exact ih.statements a (s :: acc)
          · exact bind expect fun _ => ih.statements a (s :: acc)

theorem nearsighted_block : Nearsighted (block (fuel + 1) a) := by
  rw [block]
  exact bind expect fun _ => bind deeper fun b => bind (enclosed (ih.statements b [])) fun _ => pure

theorem nearsighted_declaration {constant : Bool} :
    Nearsighted (declaration (fuel + 1) a constant) := by
  rw [declaration]
  refine bind take fun _ => bind variableName fun name => bind accept fun found => ?_
  split
  · exact bind (ih.expression a) fun _ => bind bind_variable fun _ => pure
  · exact bind pure fun _ => bind bind_variable fun _ => pure

theorem nearsighted_branch : Nearsighted (branch (fuel + 1) a) := by
  rw [branch]
  refine bind take fun _ => bind (ih.condition a) fun _ => bind (ih.block a) fun _ => ?_
  refine bind accept fun found => ?_
  split
  · refine bind peek fun p => ?_
    split
    · exact bind (ih.branch a) fun _ => pure
    · exact bind (ih.block a) fun _ => pure
  · exact pure

theorem nearsighted_condition : Nearsighted (condition (fuel + 1) a) := by
  rw [condition]
  exact bind nearsighted_noBlock fun _ => bind (ih.expression a.inner) fun _ =>
    bind nearsighted_asCondition fun _ => bind nearsighted_noAssignment fun _ => pure

theorem nearsighted_whileLoop : Nearsighted (whileLoop (fuel + 1) a) := by
  rw [whileLoop]
  exact bind take fun _ => bind (ih.condition a) fun _ => bind (ih.block _) fun _ => pure

theorem nearsighted_endless : Nearsighted (endless (fuel + 1) a) := by
  rw [endless]
  exact bind take fun _ => bind (ih.block _) fun _ => pure

theorem nearsighted_doLoop : Nearsighted (doLoop (fuel + 1) a) := by
  rw [doLoop]
  refine bind take fun _ => bind (ih.block _) fun _ => bind take fun q => ?_
  split
  · exact bind (ih.condition a) fun _ => pure
  · split
    · exact bind (ih.condition a) fun _ => pure
    · exact of_fails fails_refuse

theorem nearsighted_forLoop : Nearsighted (forLoop (fuel + 1) a) := by
  rw [forLoop]
  refine bind take fun p => bind nearsighted_loopNames fun names => ?_
  refine bind expect fun _ => bind nearsighted_noBlock fun _ => ?_
  refine bind (ih.expression a.inner) fun subject => ?_
  dsimp only
  split
  · exact of_fails fails_refused.bind
  · refine enclosed ?_
    split
    · exact bind bind_variable fun _ => bind bind_variable fun _ => bind (ih.block _) fun _ => pure
    · exact bind bind_variable fun _ => bind (ih.block _) fun _ => pure

theorem nearsighted_attempt : Nearsighted (attempt (fuel + 1) a) := by
  rw [attempt]
  refine bind take fun _ => bind (ih.block a) fun _ => bind expect fun _ => bind accept fun found => ?_
  split
  · refine bind variableName fun _ => bind expect fun _ => enclosed ?_
    exact bind bind_variable fun _ => bind (ih.block a) fun _ => pure
  · exact bind (ih.block a) fun _ => pure

theorem nearsighted_selection : Nearsighted (selection (fuel + 1) a) := by
  rw [selection]
  exact bind take fun _ => bind (ih.expression a.inner) fun _ => bind expect fun _ =>
    bind (ih.cases a none []) fun _ => pure

theorem nearsighted_caseBehind {last : Option Pos} {acc : List Case} {patterns : List Expr}
    {guard : Expr} : Nearsighted (caseBehind fuel a last acc patterns guard) := by
  refine bind expect fun _ => bind (ih.statement a.inner) fun s => ?_
  refine bind nearsighted_patterns fun values => bind peek fun q => ?_
  split
  · exact bind take fun _ => ih.cases a _ _
  · split
    · exact ih.cases a _ _
    · exact of_fails fails_refuse

theorem nearsighted_cases {last : Option Pos} {acc : List Case} :
    Nearsighted (cases (fuel + 1) a last acc) := by
  rw [cases]
  refine bind peek fun p => ?_
  split
  · exact bind take fun _ => pure
  · split
    · exact of_fails fails_fail
    · split
      · exact of_fails fails_fail
      · dsimp only
        split
        · refine bind take fun _ => bind peek fun q => ?_
          split
          · exact of_fails fails_fail.bind
          · exact nearsighted_caseBehind ih
        · refine bind (ih.patternList _ []) fun patterns => bind accept fun guarded => ?_
          split
          · exact bind (ih.condition a) fun g => nearsighted_caseBehind ih
          · exact nearsighted_caseBehind ih

theorem nearsighted_patternList {acc : List Expr} :
    Nearsighted (patternList (fuel + 1) a acc) := by
  rw [patternList]
  refine bind (ih.expression a.inner) fun e => bind accept fun found => ?_
  split
  · exact ih.patternList a (e :: acc)
  · exact pure

theorem nearsighted_parameters {close : Token} {acc : List String} :
    Nearsighted (parameters (fuel + 1) close acc) := by
  rw [parameters]
  refine bind accept fun found => ?_
  split
  · exact pure
  · refine bind variableName fun name => ?_
    dsimp only
    split
    · exact of_fails fails_fail.bind
    · refine bind take fun q => ?_
      split
      · exact pure
      · split
        · exact ih.parameters close _
        · exact of_fails fails_refuse

theorem nearsighted_bodyBehind {p : Pos} {name : String} {params : List String} :
    Nearsighted (bodyBehind fuel p name params) := by
  refine bind peek fun q => ?_
  dsimp only
  split
  · exact of_fails fails_refuse.bind
  · refine get_set (fun outer => ?_) ⟨fun _ => rfl, fun _ _ => rfl⟩ fun _ _ => rfl
    refine bind (ih.block _) fun body => bind (aside ⟨fun _ => rfl, fun _ _ => rfl⟩) fun _ => ?_
    refine get_bind (fun known => ?_) fun _ _ => rfl
    split
    · exact of_fails fails_fail.bind
    · exact bind (aside ⟨fun _ => rfl, fun _ _ => rfl⟩) fun _ => pure

theorem nearsighted_definition {p : Pos} : Nearsighted (definition (fuel + 1) p) := by
  rw [definition]
  refine bind take fun _ => bind take fun n => ?_
  split
  · refine bind accept fun found => ?_
    split
    · exact nearsighted_bodyBehind ih
    · refine bind expect fun _ => bind accept fun closed => ?_
      split
      · exact nearsighted_bodyBehind ih
      · exact bind (ih.parameters _ _) fun _ => nearsighted_bodyBehind ih
  · exact of_fails fails_refuse

/-! ## Expressions -/

theorem nearsighted_expression : Nearsighted (expression (fuel + 1) a) := by
  rw [expression]
  exact bind (ih.operand a) fun left => ih.operation a 1 left

theorem nearsighted_operation {least : Nat} {left : Expr} :
    Nearsighted (operation (fuel + 1) a least left) := by
  rw [operation]
  refine bind peek fun op => ?_
  dsimp only
  generalize (if (a.inPattern && decide (op.token = .sign "|")) = true then 0
    else precedence op.token) = strength
  split
  · exact pure
  · refine bind take fun _ => bind (ih.operand a) fun right => bind peek fun next => ?_
    have combined (right : Expr) : Nearsighted (do
        let a ← a.deeper
        operation fuel a least (← combine op.token left right op.pos)) :=
      bind deeper fun b => bind nearsighted_combine fun e => ih.operation b least e
    generalize (if (a.inPattern && decide (next.token = .sign "|")) = true then 0
      else precedence next.token) = following
    split
    · exact bind (ih.operation a _ right) combined
    · exact combined right

theorem nearsighted_operand : Nearsighted (operand (fuel + 1) a) := by
  rw [operand]
  refine bind peek fun p => ?_
  split
  · refine bind take fun _ => bind deeper fun b => bind (ih.operand b) fun e => ?_
    split
    · split <;> exact pure
    · exact pure
    · exact pure
  · refine bind take fun _ => bind deeper fun b => bind (ih.operand b) fun e => ?_
    split <;> exact pure
  · exact bind take fun _ => bind deeper fun b => bind (ih.operand b) fun e => pure
  · exact of_fails fails_fail
  · exact ih.primary a

theorem nearsighted_steps {root : Expr} {opened : Bool} :
    Nearsighted (steps (fuel + 1) a root opened) := by
  rw [steps]
  refine bind peek fun p => ?_
  split
  · exact ih.indexStep a root opened false
  · exact ih.indexStep a root opened true
  · exact ih.memberStep a root opened false
  · exact ih.memberStep a root opened true
  · exact pure

theorem nearsighted_indexStep {root : Expr} {opened optional : Bool} :
    Nearsighted (indexStep (fuel + 1) a root opened optional) := by
  rw [indexStep]
  refine bind take fun p => bind deeper fun b => bind (ih.expression b.inner) fun index => ?_
  dsimp only
  split
  · exact of_fails fails_fail.bind
  · split
    · exact of_fails fails_fail.bind
    · exact bind expect fun _ => ih.steps a _ true

theorem nearsighted_memberStep {root : Expr} {opened optional : Bool} :
    Nearsighted (memberStep (fuel + 1) a root opened optional) := by
  rw [memberStep]
  refine bind take fun _ => bind take fun n => ?_
  dsimp only
  split
  · split
    · exact of_fails fails_fail
    · exact of_fails fails_refuse
  · refine bind peek fun q => ?_
    split
    · exact bind take fun _ => bind deeper fun b => bind (ih.arguments b.inner _ []) fun _ =>
        ih.steps a _ true
    · exact bind take fun _ => ih.steps a _ true
    · split
      · exact of_fails fails_fail.bind
      · exact ih.steps a _ true

theorem nearsighted_arguments {function : String} {acc : List Expr} :
    Nearsighted (arguments (fuel + 1) a function acc) := by
  rw [arguments]
  refine bind accept fun closed => ?_
  split
  · exact pure
  · refine bind peek fun p => ?_
    dsimp only
    split
    · exact of_fails fails_fail.bind
    · refine bind (ih.expression a) fun e => bind take fun q => ?_
      split
      · exact pure
      · split
        · exact ih.arguments a function _
        · split
          · exact of_fails fails_fail
          · exact of_fails fails_refuse

theorem nearsighted_items {acc : List Expr} : Nearsighted (items (fuel + 1) a acc) := by
  rw [items]
  refine bind accept fun closed => ?_
  split
  · exact pure
  · refine bind peek fun p => ?_
    split
    · exact of_fails fails_fail
    · refine bind (ih.expression a) fun e => bind take fun q => ?_
      split
      · exact pure
      · split
        · exact ih.items a _
        · split
          · exact of_fails fails_fail
          · exact of_fails fails_refuse

theorem nearsighted_fieldBehind {acc : List Field} {p : Pos} {name : String} :
    Nearsighted (fieldBehind fuel a acc p name) := by
  unfold fieldBehind
  dsimp only
  split
  · exact of_fails fails_fail.bind
  · refine bind expect fun _ => bind (ih.expression a) fun e => bind take fun q => ?_
    split
    · exact pure
    · split
      · exact ih.fields a _
      · split
        · exact of_fails fails_refuse
        · exact of_fails fails_refuse

theorem nearsighted_fields {acc : List Field} : Nearsighted (fields (fuel + 1) a acc) := by
  rw [fields]
  refine bind accept fun closed => ?_
  split
  · exact pure
  · refine bind take fun n => ?_
    dsimp only
    split
    · exact nearsighted_fieldBehind ih
    · exact nearsighted_fieldBehind ih
    · exact of_fails fails_fail.bind
    · exact of_fails fails_fail.bind
    · exact of_fails fails_refuse.bind

theorem nearsighted_pieces {acc : List Expr} : Nearsighted (pieces (fuel + 1) a acc) := by
  rw [pieces]
  refine bind (ih.block a) fun b => bind take fun q => ?_
  split
  · split <;> exact pure
  · exact ih.pieces a _
  · exact of_fails fails_refuse

theorem nearsighted_closure {params : List String} {p : Pos} :
    Nearsighted (closure (fuel + 1) a params p) := by
  rw [closure]
  refine get_set (fun outer => ?_) ⟨fun _ => rfl, fun _ _ => rfl⟩ fun _ _ => rfl
  refine bind (ih.statement _) fun body => ?_
  refine get_set (fun inner => ?_) ⟨fun _ => rfl, fun _ _ => rfl⟩ fun _ _ => rfl
  exact bind mentions fun _ => pure

theorem nearsighted_primary : Nearsighted (primary (fuel + 1) a) := by
  have nested {m : Around → Reader Stmt} (h : ∀ b, Nearsighted (m b)) : Nearsighted (do
      let s ← m (← a.inner.deeper)
      steps fuel a (.statement s) false) :=
    bind deeper fun b => bind (h b) fun s => ih.steps a _ false
  rw [primary]
  refine bind peek fun p => ?_
  split
  · exact bind take fun _ => ih.steps a _ false
  · split
    case h_1 => exact bind deeper fun b => bind (ih.block b) fun s => ih.steps a _ false
    case h_2 =>
      exact bind take fun _ => bind deeper fun b => bind deeper fun c =>
        bind (ih.expression c) fun e => bind expect fun _ => ih.steps a e false
    case h_3 => exact nested ih.branch
    case h_4 => exact nested ih.selection
    case h_5 => exact nested ih.whileLoop
    case h_6 => exact nested ih.endless
    case h_7 => exact nested ih.doLoop
    case h_8 => exact nested ih.forLoop
    case h_9 =>
      dsimp only
      split
      · exact of_fails fails_fail.bind
      · exact bind take fun _ => bind (ih.parameters _ []) fun params =>
          bind (ih.closure a params p.pos) fun e => ih.steps a e false
    case h_10 =>
      exact bind take fun _ => bind (ih.closure a [] p.pos) fun e => ih.steps a e false
    case h_11 =>
      exact bind take fun _ => bind deeper fun b => bind (ih.pieces b _) fun parts =>
        ih.steps a _ false
    case h_12 =>
      exact bind take fun _ => bind deeper fun b => bind (ih.items b.inner []) fun es =>
        ih.steps a _ false
    case h_13 =>
      exact bind take fun _ => bind deeper fun b => bind (ih.fields b.inner []) fun fs =>
        ih.steps a _ false
    case h_14 =>
      refine bind take fun _ => bind peek fun q => ?_
      split
      · exact bind take fun _ => bind deeper fun b => bind (ih.arguments b.inner _ []) fun _ =>
          ih.steps a _ false
      · exact bind take fun _ => ih.steps a _ false
      · exact bind mention fun _ => ih.steps a _ false
    case h_15 =>
      refine bind take fun _ => ?_
      split
      · split
        · exact ih.steps a _ false
        · exact of_fails fails_fail
      · split
        · refine bind peek fun q => ?_
          split
          · exact bind take fun _ => bind deeper fun b => bind (ih.arguments b.inner _ []) fun _ =>
              ih.steps a _ false
          · exact bind take fun _ => ih.steps a _ false
          · exact of_fails fails_fail
        · exact of_fails fails_fail
    case h_16 => exact of_fails fails_fail
    case h_17 => exact of_fails fails_refuse

omit ih in
/-- Whatever fuel they have, the readers of a script look one token ahead. -/
theorem looksAhead (fuel : Nat) : LooksAhead fuel := by
  induction fuel with
  | zero => constructor <;> intros <;> exact of_fails fails_tooDeep
  | succ fuel ih =>
    exact {
      statement := fun _ => nearsighted_statement ih
      result := fun _ => nearsighted_result ih
      statements := fun _ _ => nearsighted_statements ih
      block := fun _ => nearsighted_block ih
      declaration := fun _ _ => nearsighted_declaration ih
      branch := fun _ => nearsighted_branch ih
      condition := fun _ => nearsighted_condition ih
      whileLoop := fun _ => nearsighted_whileLoop ih
      endless := fun _ => nearsighted_endless ih
      doLoop := fun _ => nearsighted_doLoop ih
      forLoop := fun _ => nearsighted_forLoop ih
      attempt := fun _ => nearsighted_attempt ih
      selection := fun _ => nearsighted_selection ih
      cases := fun _ _ _ => nearsighted_cases ih
      patternList := fun _ _ => nearsighted_patternList ih
      definition := fun _ => nearsighted_definition ih
      parameters := fun _ _ => nearsighted_parameters ih
      expression := fun _ => nearsighted_expression ih
      operation := fun _ _ _ => nearsighted_operation ih
      operand := fun _ => nearsighted_operand ih
      primary := fun _ => nearsighted_primary ih
      steps := fun _ _ _ => nearsighted_steps ih
      indexStep := fun _ _ _ _ => nearsighted_indexStep ih
      memberStep := fun _ _ _ _ => nearsighted_memberStep ih
      arguments := fun _ _ _ => nearsighted_arguments ih
      items := fun _ _ => nearsighted_items ih
      fields := fun _ _ => nearsighted_fields ih
      pieces := fun _ _ => nearsighted_pieces ih
      closure := fun _ _ _ => nearsighted_closure ih }

end Parser

end Stencil.Script
