import Stencil.Proofs.Script.Forks.Branches

/-!
# Statements with forks

A reader of a row with forks reads trees that depend on the mode only between statements that look
the same to it.  Here are the readers of statements; each of them leaves the braces around it as they
are.
-/

namespace Stencil.Script

open Resolver (modeName)

namespace Parser

/-- What `m` reads inside of `g'` has the property `P`, and ends with the brace that closes `g'`. -/
def YieldsUpTo {α : Type} (g' g : Margin) (r : Reading) (m : Reader α) (P : α → Prop) : Prop :=
  Leaves m r fun a s => P a ∧ Within .ended g s ∧ g'.rows 0 = some s.rest

/-- What the readers with some fuel read depends on the mode in forks only. -/
structure Forking (fuel : Nat) : Prop where
  statement {a g r} (here : Within .ended g r) :
    Yields g r (statement fuel a) (Stmt.Keeps twinned)
  result {a g r} (here : Within .ended g r) : Yields g r (result fuel a) (optionKeeps twinned)
  statements {a acc g g' r} (here : Within .ended g' r) (inner : g'.Inner g)
    (keeps : stmtsKeep twinned acc) :
    YieldsUpTo g' g r (statements fuel a acc) (stmtsKeep twinned)
  block {a g r} (here : Within .ended g r) : Leaves (block fuel a) r fun b s =>
    b.Keeps twinned ∧ Within .ended g s ∧ ∃ p row, r.rest = p :: row ∧ beyond 1 row = some s.rest
  declaration {a constant g r} (here : Within .ended g r) (steady : IsSteady (ahead r).token) :
    Yields g r (declaration fuel a constant) (Stmt.Keeps twinned)
  branch {a g r} (here : Within .ended g r) (word : (ahead r).token = .word "if") :
    Yields g r (branch fuel a) (Stmt.Keeps twinned)
  condition {a g r} (here : Within .ended g r) :
    Yields g r (condition fuel a) (Expr.Keeps twinned)
  whileLoop {a g r} (here : Within .ended g r) (steady : IsSteady (ahead r).token) :
    Yields g r (whileLoop fuel a) (Stmt.Keeps twinned)
  endless {a g r} (here : Within .ended g r) (steady : IsSteady (ahead r).token) :
    Yields g r (endless fuel a) (Stmt.Keeps twinned)
  doLoop {a g r} (here : Within .ended g r) (steady : IsSteady (ahead r).token) :
    Yields g r (doLoop fuel a) (Stmt.Keeps twinned)
  forLoop {a g r} (here : Within .ended g r) (steady : IsSteady (ahead r).token) :
    Yields g r (forLoop fuel a) (Stmt.Keeps twinned)
  attempt {a g r} (here : Within .ended g r) (steady : IsSteady (ahead r).token) :
    Yields g r (attempt fuel a) (Stmt.Keeps twinned)
  selection {a g r} (here : Within .ended g r) (steady : IsSteady (ahead r).token) :
    Yields g r (selection fuel a) (Stmt.Keeps twinned)
  cases {a last acc g g' r} (here : Within .ended g' r) (inner : g'.Inner g)
    (keeps : casesKeep twinned acc) : Yields g r (cases fuel a last acc) (casesKeep twinned)
  patternList {a acc g r} (here : Within .ended g r) :
    Yields g r (patternList fuel a acc) fun _ => True
  definition {p g r} (here : Within .ended g r) (steady : IsSteady (ahead r).token) :
    Yields g r (definition fuel p) (Stmt.Keeps twinned)
  parameters {close acc g r} (here : Within .ended g r) (steady : IsSteady close) :
    Yields g r (parameters fuel close acc) fun _ => True
  expression {a g r} (here : Within .ended g r) :
    Yields g r (expression fuel a) (Expr.Keeps twinned)
  operation {a least left g r} (here : Within .ended g r) (keeps : left.Keeps twinned) :
    Yields g r (operation fuel a least left) (Expr.Keeps twinned)
  operand {a g r} (here : Within .ended g r) : Yields g r (operand fuel a) (Expr.Keeps twinned)
  primary {a g r} (here : Within .ended g r) : Yields g r (primary fuel a) (Expr.Keeps twinned)
  steps {a root opened g r} (here : Within .ended g r) (keeps : root.Keeps twinned) :
    Yields g r (steps fuel a root opened) (Expr.Keeps twinned)
  indexStep {a root opened optional g r} (here : Within .ended g r)
    (steady : IsSteady (ahead r).token) (keeps : root.Keeps twinned) :
    Yields g r (indexStep fuel a root opened optional) (Expr.Keeps twinned)
  memberStep {a root opened optional g r} (here : Within .ended g r)
    (steady : IsSteady (ahead r).token) (keeps : root.Keeps twinned) :
    Yields g r (memberStep fuel a root opened optional) (Expr.Keeps twinned)
  arguments {a function acc g r} (here : Within .ended g r) (keeps : exprsKeep twinned acc) :
    Yields g r (arguments fuel a function acc) (exprsKeep twinned)
  items {a acc g r} (here : Within .ended g r) (keeps : exprsKeep twinned acc) :
    Yields g r (items fuel a acc) (exprsKeep twinned)
  fields {a acc g g' r} (here : Within .ended g' r) (inner : g'.Inner g)
    (keeps : fieldsKeep twinned acc) : Yields g r (fields fuel a acc) (fieldsKeep twinned)
  pieces {a acc g r} (here : Within .ended g r) (keeps : exprsKeep twinned acc) :
    Yields g r (pieces fuel a acc) (exprsKeep twinned)
  closure {a params p g r} (here : Within .ended g r) :
    Yields g r (closure fuel a params p) (Expr.Keeps twinned)

variable {fuel : Nat} {a : Around} {g g' : Margin} {r : Reading}

theorem stmtsKeep_reverse {rule : ModeRule} {ss : List Stmt} (h : stmtsKeep rule ss) :
    stmtsKeep rule ss.reverse :=
  stmtsKeep_iff.2 fun s hs => stmtsKeep_iff.1 h s (List.mem_reverse.1 hs)

theorem casesKeep_reverse {rule : ModeRule} {cs : List Case} (h : casesKeep rule cs) :
    casesKeep rule cs.reverse :=
  casesKeep_iff.2 fun ps guard body hc => casesKeep_iff.1 h ps guard body (List.mem_reverse.1 hc)

variable (ih : Forking fuel)

include ih

theorem Forking.reads_block (here : Within .ended g r) :
    Yields g r (Parser.block fuel a) (Stmt.Keeps twinned) :=
  (ih.block here).mono fun _ _ ⟨keeps, within, _⟩ => ⟨keeps, within⟩

theorem forks_statement (here : Within .ended g r) :
    Yields g r (statement (fuel + 1) a) (Stmt.Keeps twinned) := by
  have nested {m : Around → Reader Stmt} (h : ∀ b, Yields g r (m b) (Stmt.Keeps twinned)) :
      Yields g r (a.deeper >>= m) (Stmt.Keeps twinned) :=
    Leaves.deeper.bind fun b _ same => same ▸ h b
  rw [statement]
  refine Leaves.peek_bind ?_
  split
  case h_1 => exact Yields.pure trivial here
  case h_2 token =>
    exact (Yields.take here (by rw [token]; decide)).bind fun _ _ _ here => .pure trivial here
  case h_3 => exact nested fun _ => ih.reads_block here
  case h_4 token =>
    split
    · exact ih.definition here (by rw [token]; decide)
    · exact .of_fails fails_fail
  case h_5 token =>
    split
    · refine (Yields.take here (by rw [token]; decide)).bind fun _ s _ here => ?_
      refine Leaves.peek_bind ?_
      split
      · rename_i token
        exact ih.definition here (by rw [token]; decide)
      · exact .of_fails fails_refuse
    · exact .of_fails fails_fail
  case h_6 token => exact nested fun _ => ih.branch here token
  case h_7 token => exact nested fun _ => ih.selection here (by rw [token]; decide)
  case h_8 token => exact nested fun _ => ih.whileLoop here (by rw [token]; decide)
  case h_9 token => exact nested fun _ => ih.endless here (by rw [token]; decide)
  case h_10 token => exact nested fun _ => ih.doLoop here (by rw [token]; decide)
  case h_11 token => exact nested fun _ => ih.forLoop here (by rw [token]; decide)
  case h_12 token =>
    split
    · exact (Yields.take here (by rw [token]; decide)).bind fun _ _ _ here => .pure trivial here
    · exact .of_fails fails_fail
  case h_13 token =>
    split
    · refine (Yields.take here (by rw [token]; decide)).bind fun _ s _ here => ?_
      refine (Yields.sees here).bind fun found s _ here => ?_
      split
      · exact .pure trivial here
      · exact (ih.expression here).bind fun _ _ keeps here => .pure keeps here
    · exact .of_fails fails_fail
  case h_14 token =>
    exact (Yields.take here (by rw [token]; decide)).bind fun _ s _ here =>
      (ih.result here).bind fun _ _ keeps here => .pure keeps here
  case h_15 token =>
    exact (Yields.take here (by rw [token]; decide)).bind fun _ s _ here =>
      (ih.result here).bind fun _ _ keeps here => .pure keeps here
  case h_16 token => exact nested fun _ => ih.attempt here (by rw [token]; decide)
  case h_17 token => exact ih.declaration here (by rw [token]; decide)
  case h_18 token => exact ih.declaration here (by rw [token]; decide)
  case h_19 token =>
    refine (Yields.take here (by rw [token]; decide)).bind fun _ s _ here => ?_
    refine (Yields.deeper here).bind fun b s _ here => ?_
    refine (ih.expression here).bind fun path s keeps here => ?_
    refine (Yields.accept here (by decide)).bind fun found s _ here => ?_
    split
    · exact (Yields.variableName here).bind fun _ _ _ here => .pure keeps here
    · exact .pure keeps here
  case h_20 token =>
    split
    · refine (Yields.take here (by rw [token]; decide)).bind fun _ s _ here => ?_
      refine (Yields.variableName here).bind fun name s _ here => ?_
      refine (Yields.accept here (by decide)).bind fun found s _ here => ?_
      dsimp only
      split
      · exact (Yields.variableName here).bind fun _ s _ here =>
          (Yields.mention here).bind fun _ _ _ here => .pure trivial here
      · exact (Yields.mention here).bind fun _ _ _ here => .pure trivial here
    · exact .of_fails fails_fail
  case h_21 =>
    refine (ih.expression here).bind fun target s keeps here => ?_
    refine Leaves.peek_bind ?_
    split
    · rename_i token
      exact (Yields.take here (by rw [token]; decide)).bind fun _ s _ here =>
        (ih.expression here).bind fun _ s keeps' here => .assignment here keeps keeps'
    · split
      · rename_i assigns
        have steady : IsSteady (ahead s).token :=
          isSteady_of (P := fun t => (assignmentOperator? t).isSome) (by rw [assigns]; rfl) (by decide)
        exact (Yields.take here steady).bind fun _ s _ here =>
          (ih.expression here).bind fun _ s keeps' here => .assignment here keeps keeps'
      · exact Yields.pure keeps here

theorem forks_result (here : Within .ended g r) :
    Yields g r (result (fuel + 1) a) (optionKeeps twinned) := by
  rw [result]
  refine (Yields.sees here).bind fun found s _ here => ?_
  split
  · exact .pure trivial here
  · refine (Yields.sees here).bind fun found s _ here => ?_
    split
    · exact .pure trivial here
    · exact (ih.expression here).bind fun _ _ keeps here => .pure keeps here

theorem forks_statements {acc : List Stmt} (here : Within .ended g' r) (inner : g'.Inner g)
    (keeps : stmtsKeep twinned acc) :
    YieldsUpTo g' g r (statements (fuel + 1) a acc) (stmtsKeep twinned) := by
  rw [YieldsUpTo, statements]
  refine (here.accept_closing inner).bind fun found s closed => ?_
  rcases closed with ⟨rfl, here, left⟩ | ⟨rfl, rfl⟩
  · exact .pure ⟨stmtsKeep_reverse keeps, here, left⟩
  · refine Leaves.peek_bind ?_
    split
    · exact .of_fails fails_fail
    · refine Leaves.bind (ih.statement here) ?_
      rintro st s ⟨own, here⟩
      have keeps' : stmtsKeep twinned (st :: acc) := ⟨own, keeps⟩
      split
      · exact ih.statements here inner keeps
      · refine (here.accept_closing inner).bind fun found s closed => ?_
        rcases closed with ⟨rfl, here, left⟩ | ⟨rfl, rfl⟩
        · exact .pure ⟨stmtsKeep_reverse keeps', here, left⟩
        · rw [if_neg Bool.false_ne_true]
          split
          · exact ih.statements here inner keeps'
          · exact Leaves.bind (Yields.expect here (by decide)) fun _ _ expected =>
              ih.statements expected.2 inner keeps'

theorem forks_block (here : Within .ended g r) : Leaves (block (fuel + 1) a) r fun b s =>
    b.Keeps twinned ∧ Within .ended g s ∧
      ∃ p row, r.rest = p :: row ∧ beyond 1 row = some s.rest := by
  rw [block]
  refine here.expect_opening.bind ?_
  rintro _ s ⟨p, g', rest, inner, here, ahead⟩
  refine Leaves.deeper.bind fun b _ same => same ▸ ?_
  refine Leaves.bind (P := fun ss u => stmtsKeep twinned ss ∧ Within .ended g u ∧
    g'.rows 0 = some u.rest) ?_ ?_
  · have none : stmtsKeep twinned [] := trivial
    intro ss u eq
    obtain ⟨vars, r₁, got, eq⟩ := ok_of_bind eq
    cases got
    obtain ⟨ss', r₂, read, eq⟩ := ok_of_bind eq
    obtain ⟨keeps, here, left⟩ := ih.statements here inner none ss' r₂ read
    cases eq
    exact ⟨keeps, here.aside rfl rfl, left⟩
  · rintro ss u ⟨keeps, here, left⟩
    exact .pure ⟨keeps, here, p, s.rest, rest, ahead ▸ left⟩

theorem forks_declaration {constant : Bool} (here : Within .ended g r)
    (steady : IsSteady (ahead r).token) :
    Yields g r (declaration (fuel + 1) a constant) (Stmt.Keeps twinned) := by
  have declared {name : String} {value : Expr} {p : Pos} {s : Reading} (keeps : value.Keeps twinned)
      (here : Within .ended g s) : Yields g s (do
        Reader.bind name constant
        return .declare name value constant p) (Stmt.Keeps twinned) :=
    (Yields.bind_variable here).bind fun _ _ _ here => .pure keeps here
  rw [declaration]
  refine (Yields.take here steady).bind fun _ s _ here => ?_
  refine (Yields.variableName here).bind fun name s _ here => ?_
  refine (Yields.accept here (by decide)).bind fun found s _ here => ?_
  split
  · exact (ih.expression here).bind fun _ _ keeps here => declared keeps here
  · have unit {p : Pos} : (Expr.const .unit p).Keeps twinned := trivial
    exact (Yields.pure unit here).bind fun _ _ keeps here => declared keeps here

/-! ## Conditionals -/

theorem forks_condition (here : Within .ended g r) :
    Yields g r (condition (fuel + 1) a) (Expr.Keeps twinned) := by
  rw [condition]
  refine (Yields.noBlock here).bind fun _ s _ here => ?_
  refine (ih.expression here).bind fun e s keeps here => ?_
  refine (Yields.asCondition here).bind ?_
  rintro _ s rfl here
  exact (Yields.noAssignment here).bind fun _ _ _ here => .pure keeps here

omit ih in
/-- A condition keeps the rule, or it is the mode and the rest of a fork comes next. -/
theorem condition_behind_if (h : ∀ {g r}, Within .ended g r →
      Yields g r (condition fuel a) (Expr.Keeps twinned)) (here : Within (.word "if") g r) :
    Leaves (condition fuel a) r fun c s => Within .ended g s ∧
      (c.Keeps twinned ∨ (∃ p, c = .variable modeName p) ∧ Fork s.rest) := by
  by_cases calm : (r.rest.head?.map (·.token)) = some (.name modeName)
  · obtain ⟨⟨_, p⟩, row, rest, rfl⟩ : ∃ m row, r.rest = m :: row ∧ m.token = .name modeName := by
      cases rest : r.rest with
      | nil => simp [rest] at calm
      | cons m row => exact ⟨m, row, rfl, by simpa [rest] using calm⟩
    have forked := here.forked
    rw [rest] at forked
    obtain ⟨-, mode, behind⟩ := forked
    obtain ⟨-, fork⟩ := mode rfl
    obtain ⟨q, more, rfl, opening⟩ := fork.opens
    refine (condition_name rest opening).mono fun c s ⟨same, stepped⟩ => ?_
    refine ⟨⟨here.final.of_append [_] (stepped.rest ▸ rest) (by simp [stepped.rest]), ?_, fun n => ?_,
      stepped.functions ▸ here.functions, stepped.functions ▸ here.count⟩,
      .inr ⟨⟨p, same⟩, stepped.rest ▸ fork⟩⟩
    · rw [stepped.rest]
      exact behind.behind (by simp [opening])
    · rw [← here.rows, rest, stepped.rest, @beyond_other _ ⟨.name modeName, p⟩ _ (by simp)]
  · have outside : Within .ended g r :=
      ⟨here.final, here.forked.behind calm, here.rows, here.functions, here.count⟩
    exact Leaves.mono (h outside) fun c s ⟨keeps, within⟩ => ⟨within, .inl keeps⟩

omit ih in
theorem Within.mono {previous : Token} {g₀ : Margin} (h : Within previous g₀ r)
    (rows : g₀.rows = g.rows) (count : g.count ≤ g₀.count) : Within previous g r :=
  ⟨h.final, h.forked, rows ▸ h.rows, h.functions, Nat.le_trans count h.count⟩

/-- The two blocks of a fork look the same to a reader, and begin with an effect. -/
theorem forks_fork {p q : Pos} (here : Within .ended g r) (fork : Fork r.rest) :
    Yields g r (do
      let yes ← block fuel a
      if ← Reader.accept (.word "else") then
        if (← Reader.peek).token = .word "if" then
          return .branch (.variable modeName q) yes (← branch fuel a) p
        else return .branch (.variable modeName q) yes (← block fuel a) p
      else return .branch (.variable modeName q) yes (.skip p) p) (Stmt.Keeps twinned) := by
  generalize whole : r.rest = row at fork
  obtain ⟨x, y, u, v, w, arm, arm', more, same, isArm⟩ := fork
  -- The functions that there are already stay in number.
  have counted : Within .ended ⟨g.rows, r.functions.length⟩ r :=
    ⟨here.final, here.forked, here.rows, here.functions, Nat.le_refl _⟩
  refine Leaves.self.bind fun yes s read => ?_
  obtain ⟨keeps, here₁, _, _, rest, left⟩ := ih.block counted yes s read
  rw [whole, List.cons.injEq] at rest
  rw [← rest.2, isArm.closed 0 arm _ rfl, beyond_closing rfl, beyond_zero, Option.some.injEq] at left
  have taken : Reader.accept (.word "else") s =
      .ok (true, { s with rest := ⟨.sign "\x7b", v⟩ :: (arm' ++ ⟨.sign "\x7d", w⟩ :: more) }) := by
    have taken : Reader.take s = .ok (⟨.word "else", u⟩,
        { s with rest := ⟨.sign "\x7b", v⟩ :: (arm' ++ ⟨.sign "\x7d", w⟩ :: more) }) := by
      simp [Reader.take, ← left]
    rw [Reader.accept, bind_of_ok (peeked s), ← left, List.headD_cons, if_pos rfl, bind_of_ok taken]
    rfl
  obtain ⟨-, here₂⟩ := Yields.accept here₁ (by decide) _ _ taken
  have accepted : Leaves (Reader.accept (.word "else")) s fun found s' => found = true ∧
      s' = { s with rest := ⟨.sign "\x7b", v⟩ :: (arm' ++ ⟨.sign "\x7d", w⟩ :: more) } := by
    intro found s' eq
    rw [taken] at eq
    cases eq
    exact ⟨rfl, rfl⟩
  refine accepted.bind ?_
  rintro found s' ⟨found_else, behind⟩
  rw [← behind] at here₂
  have ahead_else : s'.rest = ⟨.sign "\x7b", v⟩ :: (arm' ++ ⟨.sign "\x7d", w⟩ :: more) := by
    rw [behind]
  rw [if_pos found_else]
  refine Leaves.peek_bind ?_
  rw [ahead_of_cons ahead_else, if_neg (by simp)]
  refine Leaves.self.bind fun no s'' read' => ?_
  obtain ⟨keeps', here₃, _, _, rest', left'⟩ := ih.block here₂ no s'' read'
  rw [ahead_else, List.cons.injEq] at rest'
  rw [← rest'.2, isArm.closed 0 arm' _ same.symm, beyond_closing rfl, beyond_zero,
    Option.some.injEq] at left'
  have copies : SameStmt yes no := by
    refine @sameStmt_of_blocks fuel a r s s' s'' yes no
      (⟨.sign "\x7b", x⟩ :: (arm ++ [⟨.sign "\x7d", y⟩]))
      (⟨.sign "\x7b", v⟩ :: (arm' ++ [⟨.sign "\x7d", w⟩])) read read' here.final.endsOpen
      here₂.final.endsOpen ?_ ?_ (by simp [same]) ?_ here₂.count
    · simp [whole, ← left]
    · simp [ahead_else, ← left']
    · rw [behind]
      exact unbinding_block r yes s read
  have acts : yes.acts = true :=
    block_acts isArm.acts (by rw [whole, List.map_cons, List.map_append]) (statement_acts isArm.acts)
      _ _ read
  exact .pure ⟨⟨.inr ⟨⟨q, rfl⟩, copies, acts⟩, keeps, keeps'⟩, here₃.mono rfl here.count⟩

theorem forks_branch (here : Within .ended g r) (word : (ahead r).token = .word "if") :
    Yields g r (branch (fuel + 1) a) (Stmt.Keeps twinned) := by
  have taken : Leaves Reader.take r fun p s => Within (.word "if") g s := by
    intro p s eq
    refine here.take_if p s eq ?_
    rw [(here.take_steady p s eq).1, word]
  rw [branch]
  refine taken.bind fun p s inside => ?_
  refine (condition_behind_if ih.condition inside).bind ?_
  rintro c s ⟨here, condition⟩
  rcases condition with keeps | ⟨⟨q, rfl⟩, fork⟩
  · refine (ih.reads_block here).bind fun yes s keeps_yes here => ?_
    refine (Yields.accept here (by decide)).bind fun found s _ here => ?_
    split
    · refine Leaves.peek_bind ?_
      split
      · rename_i word
        exact (ih.branch here word).bind fun no _ keeps_no here =>
          .pure ⟨.inl keeps, keeps_yes, keeps_no⟩ here
      · exact (ih.reads_block here).bind fun no _ keeps_no here =>
          .pure ⟨.inl keeps, keeps_yes, keeps_no⟩ here
    · exact .pure ⟨.inl keeps, keeps_yes, trivial⟩ here
  · exact forks_fork ih here fork

/-! ## Loops and handlers -/

theorem forks_whileLoop (here : Within .ended g r) (steady : IsSteady (ahead r).token) :
    Yields g r (whileLoop (fuel + 1) a) (Stmt.Keeps twinned) := by
  rw [whileLoop]
  exact (Yields.take here steady).bind fun _ _ _ here => (ih.condition here).bind
    fun _ _ keeps here => (ih.reads_block here).bind fun _ _ keeps' here => .pure ⟨keeps, keeps'⟩ here

theorem forks_endless (here : Within .ended g r) (steady : IsSteady (ahead r).token) :
    Yields g r (endless (fuel + 1) a) (Stmt.Keeps twinned) := by
  rw [endless]
  exact (Yields.take here steady).bind fun _ _ _ here => (ih.reads_block here).bind
    fun _ _ keeps here => .pure keeps here

theorem forks_doLoop (here : Within .ended g r) (steady : IsSteady (ahead r).token) :
    Yields g r (doLoop (fuel + 1) a) (Stmt.Keeps twinned) := by
  rw [doLoop]
  refine (Yields.take here steady).bind fun _ s _ here => ?_
  refine (ih.reads_block here).bind fun body s keeps here => ?_
  refine Yields.take_bind here (fun q unsteady => ?_) fun q s _ here => ?_
  · rw [if_neg (ne_of_unsteady unsteady (by decide)), if_neg (ne_of_unsteady unsteady (by decide))]
    exact fails_refuse
  · split
    · exact (ih.condition here).bind fun _ _ keeps' here => .pure ⟨keeps, keeps'⟩ here
    · split
      · exact (ih.condition here).bind fun _ _ keeps' here => .pure ⟨keeps, keeps'⟩ here
      · exact .of_fails fails_refuse

theorem forks_forLoop (here : Within .ended g r) (steady : IsSteady (ahead r).token) :
    Yields g r (forLoop (fuel + 1) a) (Stmt.Keeps twinned) := by
  rw [forLoop]
  refine (Yields.take here steady).bind fun p s _ here => ?_
  refine (Yields.loopNames here).bind fun names s _ here => ?_
  refine (Yields.expect here (by decide)).bind fun _ s _ here => ?_
  refine (Yields.noBlock here).bind fun _ s _ here => ?_
  refine (ih.expression here).bind fun subject s keeps here => ?_
  have looped {s : Reading} (here : Within .ended g s) : Yields g s (do
      Reader.bind names.1 false
      return .each names.1 names.2 subject (← block fuel { a with inLoop := true }) p.pos)
      (Stmt.Keeps twinned) :=
    (Yields.bind_variable here).bind fun _ _ _ here => (ih.reads_block here).bind
      fun _ _ keeps' here => .pure ⟨keeps, keeps'⟩ here
  dsimp only
  split
  · exact .of_fails fails_refused.bind
  · refine Yields.enclosed ?_
    split
    · exact (Yields.bind_variable here).bind fun _ _ _ here => looped here
    · exact looped here

theorem forks_attempt (here : Within .ended g r) (steady : IsSteady (ahead r).token) :
    Yields g r (attempt (fuel + 1) a) (Stmt.Keeps twinned) := by
  rw [attempt]
  refine (Yields.take here steady).bind fun _ s _ here => ?_
  refine (ih.reads_block here).bind fun body s keeps here => ?_
  refine (Yields.expect here (by decide)).bind fun _ s _ here => ?_
  refine (Yields.accept here (by decide)).bind fun found s _ here => ?_
  split
  · refine (Yields.variableName here).bind fun name s _ here => ?_
    refine (Yields.expect here (by decide)).bind fun _ s _ here => Yields.enclosed ?_
    exact (Yields.bind_variable here).bind fun _ _ _ here => (ih.reads_block here).bind
      fun _ _ keeps' here => .pure ⟨keeps, keeps'⟩ here
  · exact (ih.reads_block here).bind fun _ _ keeps' here => .pure ⟨keeps, keeps'⟩ here

/-! ## Selections -/

theorem forks_selection (here : Within .ended g r) (steady : IsSteady (ahead r).token) :
    Yields g r (selection (fuel + 1) a) (Stmt.Keeps twinned) := by
  rw [selection]
  refine (Yields.take here steady).bind fun _ s _ here => ?_
  refine (ih.expression here).bind fun subject s keeps here => ?_
  refine here.expect_opening.bind ?_
  rintro _ s ⟨p, g', -, inner, here, -⟩
  have none : casesKeep twinned [] := trivial
  exact (ih.cases here inner none).bind fun _ _ keeps' here => .pure ⟨keeps, keeps'⟩ here

theorem forks_caseBehind {last : Option Pos} {acc : List Case} {patterns : List Expr} {guard : Expr}
    (here : Within .ended g' r) (inner : g'.Inner g) (keeps : casesKeep twinned acc)
    (keeps_guard : guard.Keeps twinned) :
    Yields g r (caseBehind fuel a last acc patterns guard) (casesKeep twinned) := by
  refine Leaves.bind (Yields.expect here (by decide)) fun _ s ⟨_, here⟩ => ?_
  refine Leaves.bind (ih.statement here) fun body s ⟨keeps_body, here⟩ => ?_
  refine Leaves.bind (Yields.patterns here) fun values s ⟨_, here⟩ => ?_
  refine Leaves.peek_bind ?_
  have keeps' : casesKeep twinned (.mk values guard body :: acc) := ⟨keeps_guard, keeps_body, keeps⟩
  split
  · rename_i comma
    exact Leaves.bind (Yields.take here (by rw [comma]; decide)) fun _ s ⟨_, here⟩ =>
      ih.cases here inner keeps'
  · split
    · exact ih.cases here inner keeps'
    · exact .of_fails fails_refuse

theorem forks_cases {last : Option Pos} {acc : List Case} (here : Within .ended g' r)
    (inner : g'.Inner g) (keeps : casesKeep twinned acc) :
    Yields g r (cases (fuel + 1) a last acc) (casesKeep twinned) := by
  rw [cases]
  refine Leaves.peek_bind ?_
  split
  · rename_i closing
    refine (here.take_closing inner).bind ?_
    rintro p s ⟨same, closed⟩
    exact Yields.pure (casesKeep_reverse keeps) (closed (same ▸ closing)).1
  · split
    · exact .of_fails fails_fail
    · split
      · exact .of_fails fails_fail
      · dsimp only
        split
        · rename_i default
          have steady : IsSteady (ahead r).token := by
            rw [default]
            decide
          refine Leaves.bind (Yields.take here steady) ?_
          rintro _ s ⟨_, here⟩
          refine Leaves.peek_bind ?_
          split
          · exact .of_fails fails_fail.bind
          · exact forks_caseBehind ih here inner keeps trivial
        · refine Leaves.bind (ih.patternList here) ?_
          rintro patterns s ⟨_, here⟩
          refine here.accept_if.bind fun found s guarded => ?_
          rcases guarded with ⟨rfl, inside⟩ | ⟨rfl, rfl⟩
          · rw [if_pos rfl]
            refine (condition_behind_if ih.condition inside).bind ?_
            rintro c s ⟨here, condition⟩
            rcases condition with keeps_guard | ⟨-, fork⟩
            · exact forks_caseBehind ih here inner keeps keeps_guard
            · -- A block stands behind the mode, and no case does.
              obtain ⟨q, more, rest, opening⟩ := fork.opens
              have refused {Q : List Case → Reading → Prop} :
                  Leaves (caseBehind fuel a none acc patterns c) s Q := by
                refine Leaves.bind (P := fun _ _ => False) ?_ fun _ _ => False.elim
                refine here.take_steady.bind ?_
                rintro p u ⟨same, _⟩
                rw [same, ahead_of_cons rest, if_neg (by rw [opening]; decide)]
                exact .of_fails fails_refuse
              exact refused
          · rw [if_neg Bool.false_ne_true]
            exact forks_caseBehind ih here inner keeps trivial

theorem forks_patternList {acc : List Expr} (here : Within .ended g r) :
    Yields g r (patternList (fuel + 1) a acc) fun _ => True := by
  rw [patternList]
  refine (ih.expression here).bind fun e s _ here => ?_
  refine (Yields.accept here (by decide)).bind fun found s _ here => ?_
  split
  · exact ih.patternList here
  · exact .pure trivial here

/-! ## Functions -/

theorem forks_parameters {close : Token} {acc : List String} (here : Within .ended g r)
    (steady : IsSteady close) : Yields g r (parameters (fuel + 1) close acc) fun _ => True := by
  rw [parameters]
  refine (Yields.accept here steady).bind fun found s _ here => ?_
  split
  · exact .pure trivial here
  · refine (Yields.variableName here).bind fun name s _ here => ?_
    dsimp only
    split
    · exact .of_fails fails_fail.bind
    · refine Yields.take_bind here (fun q unsteady => ?_) fun q s _ here => ?_
      · rw [if_neg (ne_of_unsteady unsteady steady), if_neg (ne_of_unsteady unsteady (by decide))]
        exact fails_refuse
      · split
        · exact .pure trivial here
        · split
          · exact ih.parameters here steady
          · exact .of_fails fails_refuse

theorem forks_bodyBehind {p : Pos} {name : String} {params : List String}
    (here : Within .ended g r) :
    Yields g r (bodyBehind fuel p name params) (Stmt.Keeps twinned) := by
  refine Leaves.peek_bind ?_
  dsimp only
  split
  · exact .of_fails fails_refuse.bind
  · refine Leaves.get_bind (Leaves.set_bind ?_)
    refine Leaves.bind (ih.reads_block (here.aside rfl rfl)) fun body s ⟨keeps, here⟩ => ?_
    refine Leaves.modify_bind (Leaves.get_bind ?_)
    split
    · exact .of_fails fails_fail.bind
    · have defined : Within .ended g { s with functions := ⟨name, params, body⟩ :: s.functions } :=
        here.define keeps
      exact Leaves.modify_bind (Yields.pure trivial (defined.aside rfl rfl))

theorem forks_definition {p : Pos} (here : Within .ended g r) (steady : IsSteady (ahead r).token) :
    Yields g r (definition (fuel + 1) p) (Stmt.Keeps twinned) := by
  rw [definition]
  refine (Yields.take here steady).bind fun _ s _ here => ?_
  refine Yields.take_bind here (fun n unsteady => ?_) fun n s _ here => ?_
  · split
    · rename_i name
      exact absurd (by simp [name, IsSteady]) unsteady
    · exact fails_refuse
  · split
    · refine (Yields.accept here (by decide)).bind fun found s _ here => ?_
      split
      · exact forks_bodyBehind ih here
      · refine (Yields.expect here (by decide)).bind fun _ s _ here => ?_
        refine (Yields.accept here (by decide)).bind fun closed s _ here => ?_
        split
        · exact forks_bodyBehind ih here
        · exact (ih.parameters here (by decide)).bind fun _ _ _ here => forks_bodyBehind ih here
    · exact .of_fails fails_refuse

end Parser

end Stencil.Script
