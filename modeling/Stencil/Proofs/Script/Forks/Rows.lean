import Stencil.Proofs.Script.Neutral
import Stencil.Proofs.Script.Footprints
import Stencil.Proofs.Script.Splicing.Operands

/-!
# Rows of tokens with forks

A fork is a conditional on the mode of emission whose two blocks have the same tokens.  In a row that
names the mode in forks only, a reader comes to the name of the mode behind the word in front of a
condition, and nowhere else; what it has read it leaves with as many open braces as before.
-/

namespace Stencil.Script

open Resolver (modeName)

/-! ## Tokens behind braces -/

/-- What stands in a row behind its `n`-th closing brace, if those of inner blocks are not counted. -/
def beyond : Nat → List Placed → Option (List Placed)
  | 0, row => some row
  | _ + 1, [] => none
  | n + 1, t :: row =>
    match t.token with
    | .sign "\x7b" | .sign "#\x7b" => beyond (n + 2) row
    | .sign "\x7d" => beyond n row
    | _ => beyond (n + 1) row

@[simp] theorem beyond_zero (row : List Placed) : beyond 0 row = some row := by
  cases row <;> rfl

/-- A token that neither opens nor closes a brace, and has no condition behind it. -/
def IsSteady (t : Token) : Prop :=
  t ∉ [.sign "\x7b", .sign "#\x7b", .sign "\x7d", .word "if"]

instance (t : Token) : Decidable (IsSteady t) := inferInstanceAs (Decidable (_ ∉ _))

/-- A token is steady if something holds of it that holds of no other token. -/
theorem isSteady_of {P : Token → Prop} {t : Token} (h : P t)
    (others : ∀ u ∈ [.sign "\x7b", .sign "#\x7b", .sign "\x7d", .word "if"], ¬P u) : IsSteady t :=
  fun mem => others t mem h

theorem unsteady_cases {t : Token} (h : ¬IsSteady t) :
    t = .sign "\x7b" ∨ t = .sign "#\x7b" ∨ t = .sign "\x7d" ∨ t = .word "if" := by
  simpa [IsSteady] using Decidable.not_not.1 h

theorem beyond_opening {n : Nat} {t : Placed} {row : List Placed}
    (h : t.token = .sign "\x7b" ∨ t.token = .sign "#\x7b") :
    beyond (n + 1) (t :: row) = beyond (n + 2) row := by
  rcases h with h | h <;> simp only [beyond, h]

theorem beyond_closing {n : Nat} {t : Placed} {row : List Placed} (h : t.token = .sign "\x7d") :
    beyond (n + 1) (t :: row) = beyond n row := by
  simp only [beyond, h]

theorem beyond_other {n : Nat} {t : Placed} {row : List Placed}
    (h : t.token ∉ [.sign "\x7b", .sign "#\x7b", .sign "\x7d"]) :
    beyond (n + 1) (t :: row) = beyond (n + 1) row := by
  rw [beyond]
  split
  · simp_all
  · simp_all
  · simp_all
  · rfl

theorem IsSteady.beyond {n : Nat} {t : Placed} {row : List Placed} (h : IsSteady t.token) :
    beyond (n + 1) (t :: row) = beyond (n + 1) row :=
  beyond_other fun brace => h (List.mem_append_left [Token.word "if"] brace)

/-! ## Forks -/

/-- Tokens that begin with an assignment to a variable, be it guarded. -/
inductive BeginsActing : List Token → Prop
  | assign (name : String) {t : Token} (ts : List Token) (assigns : (assignmentOperator? t).isSome) :
      BeginsActing (.name name :: t :: ts)
  | attempt {ts : List Token} (inside : BeginsActing ts) :
      BeginsActing (.word "try" :: .sign "\x7b" :: ts)

/-- The tokens in a block of a fork. -/
structure IsArm (ts : List Token) : Prop where
  closed : ∀ (n : Nat) (arm row : List Placed), arm.map (·.token) = ts →
    beyond (n + 1) (arm ++ row) = beyond (n + 1) row
  acts : BeginsActing ts

/-- What stands behind the name of the mode: two blocks with the same tokens. -/
inductive Fork : List Placed → Prop
  | mk (p q u v w : Pos) (arm arm' row : List Placed)
      (same : arm.map (·.token) = arm'.map (·.token)) (isArm : IsArm (arm.map (·.token))) :
      Fork (⟨.sign "\x7b", p⟩ :: (arm ++ ⟨.sign "\x7d", q⟩ :: ⟨.word "else", u⟩ ::
        ⟨.sign "\x7b", v⟩ :: (arm' ++ ⟨.sign "\x7d", w⟩ :: row)))

theorem Fork.opens {row : List Placed} (h : Fork row) :
    ∃ q more, row = q :: more ∧ q.token = .sign "\x7b" := by
  cases h
  exact ⟨_, _, rfl, rfl⟩

/-- The name that a token is, be it reserved or not. -/
def Token.named? : Token → Option String
  | .name n | .reserved n => some n
  | _ => none

/-- Behind the token `previous` the mode is named in forks only, and no texts are evaluated. -/
def Forked : Token → List Placed → Prop
  | _, [] => True
  | previous, t :: row => t.token.named? ≠ some "eval" ∧
    (t.token = .name modeName → previous = .word "if" ∧ Fork row) ∧ Forked t.token row

theorem Forked.behind {previous t : Token} {row : List Placed} (h : Forked previous row)
    (calm : (row.head?.map (·.token)) ≠ some (.name modeName)) : Forked t row := by
  cases row with
  | nil => trivial
  | cons p row =>
    obtain ⟨own, -, others⟩ := h
    exact ⟨own, fun mode => absurd (congrArg some mode) calm, others⟩

theorem Forked.taken {previous t : Token} {p : Placed} {row : List Placed}
    (h : Forked previous (p :: row)) (other : p.token ≠ .word "if") : Forked t row := by
  refine h.2.2.behind fun mode => ?_
  cases row with
  | nil => cases mode
  | cons q row =>
    obtain ⟨-, -, -, fork, -⟩ := h
    exact other (fork (Option.some.inj mode)).1

/-! ## Statements that depend on the mode -/

/-- Closures may capture anything, and both statements look the same to their reader. -/
def twinned : ModeRule where
  captures _ := True
  copies := SameStmt

namespace Parser

/-! ## What a reader leaves -/

/-- What stands behind the braces that are open, and how many functions there are at least. -/
structure Margin where
  rows : Nat → Option (List Placed)
  count : Nat

/-- There is a last token, which is never taken away, and it is steady. -/
structure IsFinal (r : Reading) : Prop where
  filled : r.rest ≠ []
  last : ∀ p ∈ r.rest.getLast?, IsSteady p.token

theorem IsFinal.of_append {r s : Reading} (final : IsFinal r) (front : List Placed)
    (rest : r.rest = front ++ s.rest) (filled : s.rest ≠ []) : IsFinal s := by
  refine ⟨filled, fun p hp => final.last p ?_⟩
  rw [rest, List.getLast?_append, hp]
  rfl

theorem IsFinal.endsOpen {r : Reading} (final : IsFinal r) : r.EndsOpen := by
  intro p hp closing
  have steady := final.last p hp
  rw [closing] at steady
  exact absurd steady (by decide)

/-- A reader behind the token `previous`, of a script that depends on the mode in forks only. -/
structure Within (previous : Token) (g : Margin) (r : Reading) : Prop where
  final : IsFinal r
  forked : Forked previous r.rest
  rows : ∀ n, beyond (n + 1) r.rest = g.rows n
  functions : ∀ f ∈ r.functions, f.body.Keeps twinned
  count : g.count ≤ r.functions.length

/-- Inside of `g'` one brace more is open than inside of `g`. -/
structure Margin.Inner (g' g : Margin) : Prop where
  rows : ∀ n, g'.rows (n + 1) = g.rows n
  count : g'.count = g.count

variable {α β : Type} {g g' : Margin} {r s : Reading} {m : Reader α} {f : α → Reader β}
  {P : α → Prop} {Q : β → Prop} {t : Token}

theorem Leaves.peek_bind {f : Placed → Reader β} {R : β → Reading → Prop}
    (h : Leaves (f (ahead r)) r R) : Leaves (Reader.peek >>= f) r R :=
  Leaves.peek.bind fun _ _ ⟨here, same⟩ => here ▸ same ▸ h

/-- What `m` reads has the property `P`, and the reader is within `g` behind it. -/
def Yields (g : Margin) (r : Reading) (m : Reader α) (P : α → Prop) : Prop :=
  Leaves m r fun a s => P a ∧ Within .ended g s

theorem Within.ahead_named {previous : Token} (h : Within previous g r) :
    (ahead r).token.named? ≠ some "eval" ∧
      ((ahead r).token = .name modeName → previous = .word "if") := by
  have forked := h.forked
  unfold ahead
  cases rest : r.rest with
  | nil => exact ⟨by decide, nofun⟩
  | cons p row =>
    rw [rest] at forked
    obtain ⟨free, fork, -⟩ := forked
    exact ⟨free, fun mode => (fork mode).1⟩

theorem Within.aside {previous : Token} (h : Within previous g r) (rest : s.rest = r.rest)
    (functions : s.functions = r.functions) : Within previous g s :=
  ⟨⟨rest ▸ h.final.filled, rest ▸ h.final.last⟩, rest ▸ h.forked, rest ▸ h.rows,
    functions ▸ h.functions, functions ▸ h.count⟩

/-- The last token is not taken away, so that something stands behind each one that is not steady. -/
theorem Within.take {previous : Token} (h : Within previous g r) :
    Leaves Reader.take r fun p s => p = ahead r ∧
      (r.rest = p :: s.rest ∧ IsFinal s ∧ s.vars = r.vars ∧ s.functions = r.functions ∨
        IsSteady p.token ∧ s = r) := by
  intro p s eq
  match rest : r.rest with
  | [] => exact absurd rest h.final.filled
  | [u] =>
    obtain ⟨rfl, rfl⟩ : u = p ∧ r = s := by simpa [Reader.take, rest] using eq
    exact ⟨by rw [ahead, rest]; rfl, .inr ⟨h.final.last u (by simp [rest]), rfl⟩⟩
  | u :: v :: more =>
    obtain ⟨rfl, rfl⟩ : u = p ∧ { r with rest := v :: more } = s := by
      simpa [Reader.take, rest] using eq
    exact ⟨by rw [ahead, rest]; rfl, .inl ⟨rfl, h.final.of_append [u] rest (by simp), rfl, rfl⟩⟩

/-- Behind a steady token as many braces are open as in front of it. -/
theorem Within.take_steady (h : Within .ended g r) :
    Leaves Reader.take r fun p s => p = ahead r ∧ (IsSteady p.token → Within .ended g s) := by
  refine h.take.mono fun p s => ?_
  rintro ⟨here, ⟨rest, final, -, functions⟩ | ⟨-, rfl⟩⟩
  · refine ⟨here, fun steady => ⟨final, ?_, fun n => ?_, functions ▸ h.functions,
      functions ▸ h.count⟩⟩
    · have forked := h.forked
      rw [rest] at forked
      exact forked.taken fun word => steady (by simp [word])
    · rw [← h.rows, rest, steady.beyond]
  · exact ⟨here, fun _ => h⟩

/-- Behind an opening brace one brace more is open. -/
theorem Within.take_opening (h : Within .ended g r) :
    Leaves Reader.take r fun p s => p.token = .sign "\x7b" ∨ p.token = .sign "#\x7b" →
      r.rest = p :: s.rest ∧ s.vars = r.vars ∧
        ∃ g', g'.Inner g ∧ Within .ended g' s ∧ g'.rows 0 = beyond 1 s.rest := by
  refine h.take.mono fun p s taken opening => ?_
  obtain ⟨-, ⟨rest, final, vars, functions⟩ | ⟨steady, -⟩⟩ := taken
  · have forked := h.forked
    rw [rest] at forked
    refine ⟨rest, vars, ⟨fun n => beyond (n + 1) s.rest, g.count⟩, ⟨fun n => ?_, rfl⟩,
      ⟨final, forked.taken ?_, fun n => rfl, functions ▸ h.functions, functions ▸ h.count⟩, rfl⟩
    · rw [← h.rows, rest, beyond_opening opening]
    · rintro word
      simp [word] at opening
  · exact absurd steady (by rcases opening with h | h <;> rw [h] <;> decide)

/-- Behind the closing brace the reader stands where its block ends. -/
theorem Within.take_closing (h : Within .ended g' r) (inner : g'.Inner g) :
    Leaves Reader.take r fun p s => p = ahead r ∧ (p.token = .sign "\x7d" →
      Within .ended g s ∧ g'.rows 0 = some s.rest) := by
  refine h.take.mono fun p s => ?_
  rintro ⟨here, ⟨rest, final, -, functions⟩ | ⟨steady, -⟩⟩
  · refine ⟨here, fun closing => ⟨⟨final, ?_, fun n => ?_, functions ▸ h.functions,
      inner.count ▸ functions ▸ h.count⟩, ?_⟩⟩
    · have forked := h.forked
      rw [rest] at forked
      refine forked.taken fun word => ?_
      rw [word] at closing
      cases closing
    · rw [← inner.rows, ← h.rows, rest, beyond_closing closing]
    · rw [← h.rows, rest, beyond_closing closing, beyond_zero]
  · exact ⟨here, fun closing => absurd steady (by rw [closing]; decide)⟩

/-- Behind the word of a conditional the name of the mode may come next. -/
theorem Within.take_if (h : Within .ended g r) :
    Leaves Reader.take r fun p s => p.token = .word "if" → Within (.word "if") g s := by
  refine h.take.mono fun p s ⟨_, taken⟩ word => ?_
  rcases taken with ⟨rest, final, -, functions⟩ | ⟨steady, -⟩
  · have forked := h.forked
    rw [rest] at forked
    refine ⟨final, word ▸ forked.2.2, fun n => ?_, functions ▸ h.functions, functions ▸ h.count⟩
    rw [← h.rows, rest, beyond_other (by rw [word]; decide)]
  · exact absurd steady (by rw [word]; decide)

theorem Within.expect_opening {purpose : String} (h : Within .ended g r) :
    Leaves (Reader.expect (.sign "\x7b") purpose) r fun _ s => ∃ p g', r.rest = p :: s.rest ∧
      g'.Inner g ∧ Within .ended g' s ∧ g'.rows 0 = beyond 1 s.rest := by
  refine h.take_opening.bind fun p s opened => ?_
  split
  · rename_i opening
    obtain ⟨rest, -, g', inner, within, here⟩ := opened (.inl opening)
    exact .pure ⟨p, g', rest, inner, within, here⟩
  · exact .of_fails fails_refuse

theorem Within.accept_closing (h : Within .ended g' r) (inner : g'.Inner g) :
    Leaves (Reader.accept (.sign "\x7d")) r fun found s =>
      found = true ∧ Within .ended g s ∧ g'.rows 0 = some s.rest ∨ found = false ∧ s = r := by
  refine Leaves.peek_bind ?_
  split
  · rename_i closing
    refine (h.take_closing inner).bind fun p s ⟨here, closed⟩ => ?_
    exact .pure (.inl ⟨rfl, closed (here ▸ closing)⟩)
  · exact .pure (.inr ⟨rfl, rfl⟩)

theorem Within.accept_if (h : Within .ended g r) :
    Leaves (Reader.accept (.word "if")) r fun found s =>
      found = true ∧ Within (.word "if") g s ∨ found = false ∧ s = r := by
  refine Leaves.peek_bind ?_
  split
  · rename_i word
    have taken := h.take_steady
    refine Leaves.bind (P := fun p s => Within (.word "if") g s) ?_ fun p s left =>
      .pure (.inl ⟨rfl, left⟩)
    intro p s eq
    refine h.take_if p s eq ?_
    rw [(taken p s eq).1, word]
  · exact .pure (.inr ⟨rfl, rfl⟩)

theorem Within.define (h : Within .ended g r) {f : Function} (keeps : f.body.Keeps twinned) :
    Within .ended g { r with functions := f :: r.functions } where
  final := ⟨h.final.filled, h.final.last⟩
  forked := h.forked
  rows := h.rows
  functions := List.forall_mem_cons.2 ⟨keeps, h.functions⟩
  count := Nat.le_succ_of_le h.count

namespace Leaves

variable {R : β → Reading → Prop}

/-- Of what `m` reads is known that it reads it. -/
theorem self : Leaves m r fun a s => m r = .ok (a, s) := fun _ _ eq => eq

theorem get_bind {f : Reading → Reader β} (h : Leaves (f r) r R) : Leaves (get >>= f) r R := h

theorem set_bind {f : PUnit → Reader β} (h : Leaves (f ()) s R) : Leaves (set s >>= f) r R := h

theorem modify_bind {change : Reading → Reading} {f : PUnit → Reader β}
    (h : Leaves (f ()) (change r) R) : Leaves (modify change >>= f) r R := h

end Leaves

theorem ne_of_unsteady {t u : Token} (unsteady : ¬IsSteady t) (steady : IsSteady u) : t ≠ u := by
  rintro rfl
  exact unsteady steady

theorem leaves_assignment {op : Option String} {target value : Expr} {p : Pos} :
    Leaves (assignment op target value p) r fun st s => st = .assign op target value p ∧ s = r := by
  have assigned {s : Reading} (same : s = r) : Leaves (Pure.pure (Stmt.assign op target value p)) s
      fun st u => st = .assign op target value p ∧ u = r :=
    .pure ⟨rfl, same⟩
  refine Leaves.bind (P := fun _ s => s = r) (by rintro _ _ ⟨⟩; rfl) fun vars s same => ?_
  dsimp only
  split
  · split
    · exact .of_fails fails_fail
    · exact assigned same
  · split
    · split
      · exact assigned same
      · exact assigned same
      · exact .of_fails fails_fail
    · exact .of_fails fails_fail
  · exact assigned same
  · exact .of_fails fails_fail
  · exact .of_fails fails_fail

namespace Yields

theorem of_fails (h : Fails m) : Yields g r m P := Leaves.of_fails h

theorem pure {a : α} (h : P a) (within : Within .ended g r) : Yields g r (Pure.pure a) P :=
  Leaves.pure ⟨h, within⟩

theorem mono {P' : α → Prop} (h : Yields g r m P) (weaker : ∀ a, P a → P' a) : Yields g r m P' :=
  Leaves.mono h fun a _ ⟨holds, within⟩ => ⟨weaker a holds, within⟩

theorem bind (first : Yields g r m P) (second : ∀ a s, P a → Within .ended g s → Yields g s (f a) Q) :
    Yields g r (m >>= f) Q :=
  Leaves.bind first fun a s ⟨holds, within⟩ => second a s holds within

theorem take (within : Within .ended g r) (steady : IsSteady (ahead r).token) :
    Yields g r Reader.take (· = ahead r) :=
  within.take_steady.mono fun _ _ ⟨here, left⟩ => ⟨here, left (here ▸ steady)⟩

/-- What is done with a token that is taken fails behind those that are not steady. -/
theorem take_bind {f : Placed → Reader β} (within : Within .ended g r)
    (unsteady : ∀ p, ¬IsSteady p.token → Fails (f p))
    (second : ∀ p s, IsSteady p.token → Within .ended g s → Yields g s (f p) Q) :
    Yields g r (Reader.take >>= f) Q := by
  refine within.take_steady.bind fun p s ⟨_, left⟩ => ?_
  by_cases steady : IsSteady p.token
  · exact second p s steady (left steady)
  · exact of_fails (unsteady p steady)

theorem expect {purpose : String} (within : Within .ended g r) (steady : IsSteady t) :
    Yields g r (Reader.expect t purpose) fun _ => True := by
  refine take_bind within (fun p unsteady => ?_) fun p s _ left => ?_
  · rw [if_neg (ne_of_unsteady unsteady steady)]
    exact fails_refuse
  · split
    · exact pure trivial left
    · exact of_fails fails_refuse

theorem accept (within : Within .ended g r) (steady : IsSteady t) :
    Yields g r (Reader.accept t) fun _ => True := by
  refine Leaves.peek_bind ?_
  split
  · rename_i same
    have steady : IsSteady (ahead r).token := by rwa [same]
    exact (take within steady).bind fun _ _ _ left => pure trivial left
  · exact pure trivial within

theorem sees {ts : List Token} (within : Within .ended g r) :
    Yields g r (Reader.sees ts) fun _ => True :=
  Leaves.peek_bind (pure trivial within)

theorem variableName (within : Within .ended g r) :
    Yields g r Reader.variableName fun _ => True := by
  refine take_bind within (fun p unsteady => ?_) fun p s _ left => ?_
  · split
    · rename_i name
      exact absurd (by simp [name, IsSteady]) unsteady
    · exact fails_fail
    · exact fails_refuse
  · split
    · exact pure trivial left
    · exact of_fails fails_fail
    · exact of_fails fails_refuse

theorem deeper {a : Around} (within : Within .ended g r) : Yields g r a.deeper fun _ => True :=
  Leaves.deeper.mono fun _ _ same => ⟨trivial, same ▸ within⟩

theorem mention {name : String} {p : Pos} (within : Within .ended g r) :
    Yields g r (Reader.mention name p) fun _ => True :=
  Leaves.mention.mono fun _ _ ⟨moved, same⟩ => ⟨trivial, within.aside same moved.functions⟩

theorem bind_variable {name : String} {constant : Bool} (within : Within .ended g r) :
    Yields g r (Reader.bind name constant) fun _ => True := by
  rintro _ _ ⟨⟩
  exact ⟨trivial, within.aside rfl rfl⟩

theorem enclosed (h : Yields g r m P) : Yields g r (Reader.enclosed m) P := by
  intro a s eq
  obtain ⟨vars, r₁, first, eq⟩ := ok_of_bind eq
  cases first
  obtain ⟨a', r₂, read, eq⟩ := ok_of_bind eq
  obtain ⟨holds, within⟩ := h a' r₂ read
  cases eq
  exact ⟨holds, within.aside rfl rfl⟩

/-! ### Small readers -/

variable {e left right : Expr} {p : Pos}

theorem noBlock (within : Within .ended g r) : Yields g r Parser.noBlock fun _ => True := by
  refine Leaves.peek_bind ?_
  split
  · exact of_fails fails_fail
  · exact pure trivial within

theorem noAssignment (within : Within .ended g r) :
    Yields g r Parser.noAssignment fun _ => True := by
  refine Leaves.peek_bind ?_
  split
  · exact of_fails fails_fail
  · split
    · exact of_fails fails_fail
    · exact pure trivial within

theorem asCondition (within : Within .ended g r) : Yields g r (asCondition e) (· = e) := by
  unfold Parser.asCondition
  split
  · exact pure rfl within
  · exact of_fails fails_refused

theorem combine (within : Within .ended g r) (hl : left.Keeps twinned)
    (hr : right.Keeps twinned) : Yields g r (combine t left right p) (Expr.Keeps twinned) := by
  have joined {f : Expr → Expr → Expr} (h : (f left right).Keeps twinned) : Yields g r (do
      return f (← Parser.asCondition left) (← Parser.asCondition right)) (Expr.Keeps twinned) := by
    refine (asCondition within).bind ?_
    rintro _ s rfl within
    refine (asCondition within).bind ?_
    rintro _ s rfl within
    exact pure h within
  unfold Parser.combine
  split
  · split
    · exact joined ⟨hl, hr⟩
    · split
      · exact joined ⟨hl, hr⟩
      · split
        · exact pure ⟨hl, hr⟩ within
        · split
          · exact pure ⟨⟨hr, hl, trivial⟩, trivial⟩ within
          · exact pure ⟨hl, hr, trivial⟩ within
  · exact pure ⟨hr, hl, trivial⟩ within

theorem pattern (within : Within .ended g r) : Yields g r (pattern e) fun _ => True := by
  unfold Parser.pattern
  split
  · exact pure trivial within
  · exact of_fails fails_fail

theorem patterns {es : List Expr} (within : Within .ended g r) :
    Yields g r (es.mapM Parser.pattern) fun _ => True := by
  induction es generalizing r with
  | nil => exact pure trivial within
  | cons e more ih =>
    rw [List.mapM_cons]
    exact (pattern within).bind fun _ _ _ within => (ih within).bind fun _ _ _ within =>
      pure trivial within

theorem loopNames (within : Within .ended g r) : Yields g r Parser.loopNames fun _ => True := by
  refine (accept within (by decide)).bind fun found s _ within => ?_
  split
  · refine (variableName within).bind fun name s _ within => ?_
    refine (expect within (by decide)).bind fun _ s _ within => ?_
    refine (variableName within).bind fun counter s _ within => ?_
    dsimp only
    split
    · exact of_fails fails_fail.bind
    · exact (expect within (by decide)).bind fun _ _ _ within => pure trivial within
  · exact (variableName within).bind fun _ _ _ within => pure trivial within

theorem assignment {op : Option String} {target value : Expr} (within : Within .ended g r)
    (ht : target.Keeps twinned) (hv : value.Keeps twinned) :
    Yields g r (assignment op target value p) (Stmt.Keeps twinned) := by
  refine leaves_assignment.mono ?_
  rintro _ _ ⟨rfl, same⟩
  exact ⟨⟨ht, hv⟩, same ▸ within⟩

end Yields

end Parser

end Stencil.Script
