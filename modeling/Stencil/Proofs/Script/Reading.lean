import Stencil.Script.Parser
import Stencil.Proofs.Script.Outline

/-!
# Reading outlines

A reader that stands before the tokens of an outline reads statements of its shape.  The places of
the tokens are left open: a step of a reader is told by the tokens before it and behind it and by a
property of what it gives.  The fuel that is needed is bounded by the count of the tokens.
-/

namespace Stencil.Script

variable {α β : Type} {K : List Function → Prop}

/-- A reader among variables that may be assigned to, and behind functions for which `K` holds. -/
structure Calm (K : List Function → Prop) (r : Reading) : Prop where
  vars : ∀ name, r.vars.lookup name ≠ some true
  functions : K r.functions

/--
In front of the tokens `ts` the reader stops in front of `us`, with a result for which `P` holds and
among functions for which `K` holds, as it did before.
-/
def Reads (K : List Function → Prop) (m : Reader α) (ts us : List Token) (P : α → Prop) : Prop :=
  ∀ r, Calm K r → r.rest.map (·.token) = ts →
    ∃ a r', m r = .ok (a, r') ∧ P a ∧ Calm K r' ∧ r'.rest.map (·.token) = us

namespace Reads

variable {m : Reader α} {f : α → Reader β} {ts us vs : List Token} {P Q : α → Prop}
  {R : β → Prop}

theorem pure {a : α} (h : P a) : Reads K (Pure.pure a) ts ts P :=
  fun r hr ht => ⟨a, r, rfl, h, hr, ht⟩

theorem bind (first : Reads K m ts us P) (second : ∀ a, P a → Reads K (f a) us vs R) :
    Reads K (m >>= f) ts vs R := by
  intro r hr ht
  obtain ⟨a, r', eq, ha, hr', ht'⟩ := first r hr ht
  obtain ⟨b, r'', eq', hb, hr'', ht''⟩ := second a ha r' hr' ht'
  refine ⟨b, r'', ?_, hb, hr'', ht''⟩
  rw [← eq']
  change (m r).bind _ = _
  rw [eq]
  rfl

theorem bind_congr {g : α → Reader β} (first : Reads K m ts us P) (same : ∀ a, P a → f a = g a)
    (h : Reads K (m >>= f) ts vs R) : Reads K (m >>= g) ts vs R := by
  intro r hr ht
  obtain ⟨a, r', eq, ha, -, -⟩ := first r hr ht
  have run (k : α → Reader β) : (m >>= k) r = k a r' := by
    change (m r).bind _ = _
    rw [eq]
    rfl
  rw [run g, ← same a ha, ← run f]
  exact h r hr ht

theorem mono (h : Reads K m ts us P) (weaker : ∀ a, P a → Q a) : Reads K m ts us Q := by
  intro r hr ht
  obtain ⟨a, r', eq, ha, hr', ht'⟩ := h r hr ht
  exact ⟨a, r', eq, weaker a ha, hr', ht'⟩

/-! ## Tokens -/

variable {t u : Token}

theorem peek : Reads K Reader.peek (t :: ts) (t :: ts) (·.token = t) := by
  intro r hr ht
  cases hl : r.rest with
  | nil => simp [hl] at ht
  | cons p rest =>
    rw [hl] at ht
    simp only [List.map_cons, List.cons.injEq] at ht
    refine ⟨p, r, ?_, ht.1, hr, ?_⟩
    · simp [Reader.peek, hl]
    · rw [hl, List.map_cons, ht.1, ht.2]

theorem take : Reads K Reader.take (t :: u :: ts) (u :: ts) (·.token = t) := by
  intro r hr ht
  match hl : r.rest with
  | [] => simp [hl] at ht
  | [p] => simp [hl] at ht
  | p :: q :: rest =>
    rw [hl] at ht
    simp only [List.map_cons, List.cons.injEq] at ht
    refine ⟨p, { r with rest := q :: rest }, ?_, ht.1, ⟨hr.vars, hr.functions⟩, ?_⟩
    · simp [Reader.take, hl]
    · rw [List.map_cons, ht.2.1, ht.2.2]

theorem accept : Reads K (Reader.accept t) (t :: u :: ts) (u :: ts) (· = true) := by
  refine bind peek fun p hp => ?_
  simp only [hp, if_true]
  exact bind take fun _ _ => pure rfl

theorem accept_other (h : u ≠ t) : Reads K (Reader.accept t) (u :: ts) (u :: ts) (· = false) := by
  refine bind peek fun p hp => ?_
  simp only [hp, h, if_false]
  exact pure rfl

theorem expect {purpose : String} :
    Reads K (Reader.expect t purpose) (t :: u :: ts) (u :: ts) (fun _ => True) := by
  refine bind take fun p hp => ?_
  simp only [hp, if_true]
  exact pure trivial

/-! ## Variables -/

theorem enclosed (h : Reads K m ts us P) : Reads K (Reader.enclosed m) ts us P := by
  intro r hr ht
  obtain ⟨a, r', eq, ha, hr', ht'⟩ := h r hr ht
  refine ⟨a, { r' with vars := r.vars }, ?_, ha, ⟨hr.vars, hr'.functions⟩, ht'⟩
  change ((m r).bind fun (a, r') => .ok (a, { r' with vars := r.vars })) = _
  rw [eq]
  rfl

theorem bind_variable {name : String} :
    Reads K (Reader.bind name false) ts ts (fun _ => True) := by
  intro r hr ht
  refine ⟨(), { r with vars := (name, false) :: r.vars }, rfl, trivial, ⟨?_, hr.functions⟩, ht⟩
  intro other
  rw [List.lookup_cons]
  split
  · simp
  · exact hr.vars other

theorem mention {name : String} {p : Pos} :
    Reads K (Reader.mention name p) ts ts (fun _ => True) := by
  intro r hr ht
  refine ⟨(), _, rfl, trivial, ?_, ?_⟩
  · dsimp only
    split
    · exact hr
    · exact ⟨hr.vars, hr.functions⟩
  · dsimp only
    split <;> exact ht

theorem variableName {name : String} :
    Reads K Reader.variableName (.name name :: u :: ts) (u :: ts) (·.1 = name) := by
  refine bind take fun p hp => ?_
  simp only [hp]
  exact pure rfl

theorem deeper {a : Around} (h : a.depth < a.limit) :
    Reads K a.deeper ts ts (· = { a with depth := a.depth + 1 }) := by
  rw [Around.deeper, if_neg (Nat.not_le.2 h)]
  exact pure rfl

end Reads

namespace Parser

/-! ## Expressions -/

/-- The tokens that end an expression. -/
def stops : List Token := [.sign ";", .sign "\x7b", .sign "\x7d", .sign ")", .sign "]", .sign ",",
  .sign "+=", .ended]

variable {fuel : Nat} {a : Around} {e : Expr} {t u : Token} {ts us vs : List Token}
  {P : Expr → Prop}

theorem reads_steps (ht : t ∈ stops) {opened : Bool} (he : P e) :
    Reads K (steps (fuel + 1) a e opened) (t :: ts) (t :: ts) P := by
  rw [steps]
  refine Reads.bind Reads.peek fun p hp => ?_
  simp only [stops, List.mem_cons, List.not_mem_nil, or_false] at ht
  rcases ht with rfl | rfl | rfl | rfl | rfl | rfl | rfl | rfl
  all_goals
    simp only [hp]
    exact Reads.pure he

theorem reads_operation (ht : t ∈ stops) (he : P e) :
    Reads K (operation (fuel + 1) a 1 e) (t :: ts) (t :: ts) P := by
  rw [operation]
  refine Reads.bind Reads.peek fun p hp => ?_
  have table : ∀ t ∈ stops, precedence t = 0 := by decide
  have loose : precedence p.token = 0 := by rw [hp, table t ht]
  simp only [loose, ite_self, Nat.zero_lt_one, decide_true, Bool.true_or, if_true]
  exact Reads.pure he

theorem reads_expression (ht : t ∈ stops)
    (h : Reads K (operand (fuel + 1) a) us (t :: ts) P) :
    Reads K (expression (fuel + 2) a) us (t :: ts) P := by
  rw [expression]
  exact Reads.bind h fun e he => reads_operation ht he

/-- The tokens that an operand does not simply begin with. -/
def prefixes : List Token := [.sign "-", .sign "+", .sign "!", .ended]

theorem reads_operand (hu : u ∉ prefixes)
    (h : Reads K (primary fuel a) (u :: us) ts P) :
    Reads K (operand (fuel + 1) a) (u :: us) ts P := by
  rw [operand]
  refine Reads.bind Reads.peek fun p hp => ?_
  rw [hp]
  split
  · exact absurd (by simp [prefixes]) hu
  · exact absurd (by simp [prefixes]) hu
  · exact absurd (by simp [prefixes]) hu
  · exact absurd (by simp [prefixes]) hu
  · exact h

theorem reads_variable {name : String} (ht : t ∈ stops) :
    Reads K (expression (fuel + 4) a) (.name name :: t :: ts) (t :: ts)
      (∃ p, · = .variable name p) := by
  refine reads_expression ht (reads_operand (by simp [prefixes]) ?_)
  rw [primary]
  refine Reads.bind Reads.peek fun p hp => ?_
  simp only [hp, constant?]
  refine Reads.bind Reads.take fun _ _ => Reads.bind Reads.peek fun q hq => ?_
  have variable_follows : Reads K (do
      Reader.mention name p.pos
      steps (fuel + 1) a (.variable name p.pos) false) (t :: ts) (t :: ts)
      (∃ p, · = .variable name p) :=
    Reads.bind Reads.mention fun _ _ => reads_steps ht ⟨p.pos, rfl⟩
  simp only [stops, List.mem_cons, List.not_mem_nil, or_false] at ht
  rcases ht with rfl | rfl | rfl | rfl | rfl | rfl | rfl | rfl
  all_goals
    simp only [hq]
    exact variable_follows

theorem reads_constant {v : Value} (hu : constant? u = some v) (ht : t ∈ stops) :
    Reads K (expression (fuel + 4) a) (u :: t :: ts) (t :: ts) (∃ p, · = .const v p) := by
  have plain : u ∉ prefixes := by
    intro h
    simp only [prefixes, List.mem_cons, List.not_mem_nil, or_false] at h
    rcases h with rfl | rfl | rfl | rfl
    all_goals cases hu
  refine reads_expression ht (reads_operand plain ?_)
  rw [primary]
  refine Reads.bind Reads.peek fun p hp => ?_
  simp only [hp, hu]
  exact Reads.bind Reads.take fun _ _ => reads_steps ht ⟨p.pos, rfl⟩

theorem reads_text {text : String} (ht : t ∈ stops) :
    Reads K (expression (fuel + 4) a) (.text text :: t :: ts) (t :: ts)
      (∃ p, · = .const (.string text) p) :=
  reads_constant rfl ht

/-- A call with one argument. -/
theorem reads_call_of {function : String} (ht : t ∈ stops) (depth : a.depth < a.limit)
    (hu : u ≠ .sign ")") (hu' : u ≠ .ended)
    (argument : Reads K (expression fuel { a.inner with depth := a.depth + 1 }) (u :: us)
      (.sign ")" :: t :: ts) P) :
    Reads K (expression (fuel + 4) a) (.name function :: .sign "(" :: u :: us) (t :: ts)
      (∃ e q, P e ∧ · = .call function [e] q) := by
  refine reads_expression ht (reads_operand (by simp [prefixes]) ?_)
  refine Reads.bind Reads.peek fun p hp => ?_
  simp only [hp]
  refine Reads.bind Reads.take fun _ _ => Reads.bind Reads.peek fun q hq => ?_
  simp only [hq]
  refine Reads.bind Reads.take fun _ _ => Reads.bind (Reads.deeper depth) ?_
  rintro _ rfl
  refine Reads.bind
    (show Reads K _ _ (t :: ts) (fun args => ∃ e, P e ∧ args = [e]) from ?_)
    fun args ⟨e, he, hargs⟩ => hargs ▸ reads_steps ht ⟨e, p.pos, he, rfl⟩
  rw [arguments]
  refine Reads.bind (Reads.accept_other hu) fun found hfound => ?_
  subst hfound
  refine Reads.bind Reads.peek fun v hv => ?_
  simp only [hv, hu', if_false]
  refine Reads.bind argument fun e he => Reads.bind Reads.take fun w hw => ?_
  simp only [hw]
  exact Reads.pure ⟨e, he, rfl⟩

theorem reads_call {function name : String} (ht : t ∈ stops) (depth : a.depth < a.limit) :
    Reads K (expression (fuel + 8) a)
      (.name function :: .sign "(" :: .name name :: .sign ")" :: t :: ts) (t :: ts)
      (∃ p q, · = .call function [.variable name p] q) := by
  refine (reads_call_of ht depth (by simp) (by simp) (reads_variable (by simp [stops]))).mono ?_
  rintro _ ⟨_, q, ⟨p, rfl⟩, rfl⟩
  exact ⟨p, q, rfl⟩

/-- A call without arguments. -/
theorem reads_call_empty {function : String} (ht : t ∈ stops) :
    Reads K (expression (fuel + 4) a) (.name function :: .sign "()" :: t :: ts) (t :: ts)
      (∃ p, · = .call function [] p) := by
  refine reads_expression ht (reads_operand (by simp [prefixes]) ?_)
  refine Reads.bind Reads.peek fun p hp => ?_
  simp only [hp]
  refine Reads.bind Reads.take fun _ _ => Reads.bind Reads.peek fun q hq => ?_
  simp only [hq]
  exact Reads.bind Reads.take fun _ _ => reads_steps ht ⟨p.pos, rfl⟩

/-- The negation of what is read as an operand. -/
theorem reads_negation (ht : t ∈ stops) (depth : a.depth < a.limit)
    (h : Reads K (operand fuel { a with depth := a.depth + 1 }) us (t :: ts) P) (filled : us ≠ []) :
    Reads K (expression (fuel + 2) a) (.sign "!" :: us) (t :: ts)
      (∃ e p, P e ∧ · = .operator "!" [e] p) := by
  obtain ⟨u, more, rfl⟩ := List.exists_cons_of_ne_nil filled
  refine reads_expression ht ?_
  rw [operand]
  refine Reads.bind Reads.peek fun p hp => ?_
  simp only [hp]
  refine Reads.bind Reads.take fun _ _ => Reads.bind (Reads.deeper depth) ?_
  rintro _ rfl
  exact Reads.bind h fun e he => Reads.pure ⟨e, p.pos, he, rfl⟩

/-- A method of a variable with a text as its argument. -/
theorem reads_method {name method text : String} (ht : t ∈ stops) (depth : a.depth < a.limit) :
    Reads K (operand (fuel + 9) a)
      (.name name :: .sign "." :: .name method :: .sign "(" :: .text text :: .sign ")" :: t :: ts)
      (t :: ts) (∃ p q u, · =
        .chain (.variable name p) [.method method [.const (.string text) q] u false]) := by
  refine reads_operand (by simp [prefixes]) ?_
  refine Reads.bind Reads.peek fun p hp => ?_
  simp only [hp]
  refine Reads.bind Reads.take fun _ _ => Reads.bind Reads.peek fun q hq => ?_
  simp only [hq]
  refine Reads.bind Reads.mention fun _ _ => ?_
  rw [steps]
  refine Reads.bind Reads.peek fun o ho => ?_
  simp only [ho]
  rw [memberStep]
  refine Reads.bind Reads.take fun _ _ => Reads.bind Reads.take fun n hn => ?_
  simp only [hn]
  refine Reads.bind Reads.peek fun b hb => ?_
  simp only [hb]
  refine Reads.bind Reads.take fun _ _ => Reads.bind (Reads.deeper depth) ?_
  rintro _ rfl
  rw [arguments]
  refine Reads.bind (show Reads K _ _ (t :: ts)
    (fun args => ∃ q, args = [.const (.string text) q]) from ?_) ?_
  · refine Reads.bind (Reads.accept_other (by simp)) fun found hfound => ?_
    subst hfound
    refine Reads.bind Reads.peek fun v hv => ?_
    simp only [hv, reduceCtorEq, if_false]
    refine Reads.bind (reads_text (by simp [stops])) ?_
    rintro _ ⟨v, rfl⟩
    refine Reads.bind Reads.take fun w hw => ?_
    simp only [hw, if_true]
    exact Reads.pure ⟨v, rfl⟩
  · rintro _ ⟨v, rfl⟩
    exact reads_steps ht ⟨p.pos, v, n.pos, rfl⟩

/-- A field of a variable, by its name. -/
theorem reads_index {name key : String} (ht : t ∈ stops) (depth : a.depth < a.limit) :
    Reads K (expression (fuel + 9) a)
      (.name name :: .sign "[" :: .text key :: .sign "]" :: t :: ts) (t :: ts)
      (∃ p q s, · = .chain (.variable name p) [.index (.const (.string key) q) s false]) := by
  refine reads_expression ht (reads_operand (by simp [prefixes]) ?_)
  refine Reads.bind Reads.peek fun p hp => ?_
  simp only [hp]
  refine Reads.bind Reads.take fun _ _ => Reads.bind Reads.peek fun q hq => ?_
  simp only [hq]
  refine Reads.bind Reads.mention fun _ _ => ?_
  rw [steps]
  refine Reads.bind Reads.peek fun o ho => ?_
  simp only [ho]
  rw [indexStep]
  refine Reads.bind Reads.take fun s _ => Reads.bind (Reads.deeper depth) ?_
  rintro _ rfl
  refine Reads.bind (reads_text (by simp [stops])) ?_
  rintro index ⟨v, rfl⟩
  simp only [Expr.refusesIndex, Expr.isNoIndex, Bool.and_false, Bool.false_eq_true, if_false]
  exact Reads.bind Reads.expect fun _ _ => reads_steps ht ⟨p.pos, v, s.pos, rfl⟩

/-! ## Arrays and maps -/

section

variable {es : List Expr} {fs : List Field} {name : String} {Q : List Expr → Prop}
  {R : List Field → Prop}

theorem reads_array (ht : t ∈ stops) (depth : a.depth < a.limit)
    (h : Reads K (items (fuel + 1) { a.inner with depth := a.depth + 1 } []) (u :: us) (t :: ts) Q)
    (value : ∀ es p, Q es → P (.array es p)) :
    Reads K (expression (fuel + 4) a) (.sign "[" :: u :: us) (t :: ts) P := by
  refine reads_expression ht (reads_operand (by simp [prefixes]) ?_)
  refine Reads.bind Reads.peek fun p hp => ?_
  rw [hp]
  refine Reads.bind Reads.take fun _ _ => Reads.bind (Reads.deeper depth) ?_
  rintro b rfl
  exact Reads.bind h fun es he => reads_steps ht (value es p.pos he)

theorem reads_map (ht : t ∈ stops) (depth : a.depth < a.limit)
    (h : Reads K (fields (fuel + 1) { a.inner with depth := a.depth + 1 } []) (u :: us) (t :: ts) R)
    (value : ∀ fs p, R fs → P (.map fs p)) :
    Reads K (expression (fuel + 4) a) (.sign "#\x7b" :: u :: us) (t :: ts) P := by
  refine reads_expression ht (reads_operand (by simp [prefixes]) ?_)
  refine Reads.bind Reads.peek fun p hp => ?_
  rw [hp]
  refine Reads.bind Reads.take fun _ _ => Reads.bind (Reads.deeper depth) ?_
  rintro b rfl
  exact Reads.bind h fun fs hf => reads_steps ht (value fs p.pos hf)

theorem reads_items_nil (h : Q es.reverse) :
    Reads K (items (fuel + 1) a es) (.sign "]" :: u :: us) (u :: us) Q := by
  rw [items]
  refine Reads.bind Reads.accept fun found hfound => ?_
  subst hfound
  exact Reads.pure h

/-- The last item stands in front of the bracket. -/
theorem reads_items_last (ht : t ≠ .sign "]") (ht' : t ≠ .ended)
    (item : Reads K (expression fuel a) (t :: ts) (.sign "]" :: u :: us) P)
    (h : ∀ e, P e → Q (e :: es).reverse) :
    Reads K (items (fuel + 1) a es) (t :: ts) (u :: us) Q := by
  rw [items]
  refine Reads.bind (Reads.accept_other ht) fun found hfound => ?_
  subst hfound
  refine Reads.bind Reads.peek fun p hp => ?_
  simp only [hp, ht', if_false]
  refine Reads.bind item fun e he => Reads.bind Reads.take fun q hq => ?_
  simp only [hq, if_true]
  exact Reads.pure (h e he)

theorem reads_items_cons (ht : t ≠ .sign "]") (ht' : t ≠ .ended)
    (item : Reads K (expression fuel a) (t :: ts) (.sign "," :: u :: us) P)
    (others : ∀ e, P e → Reads K (items fuel a (e :: es)) (u :: us) vs Q) :
    Reads K (items (fuel + 1) a es) (t :: ts) vs Q := by
  have comma : Token.sign "," ≠ .sign "]" := by decide
  rw [items]
  refine Reads.bind (Reads.accept_other ht) fun found hfound => ?_
  subst hfound
  refine Reads.bind Reads.peek fun p hp => ?_
  simp only [hp, ht', if_false]
  refine Reads.bind item fun e he => Reads.bind Reads.take fun q hq => ?_
  simp only [hq, comma, if_false, if_true]
  exact others e he

theorem reads_fields_nil (h : R fs.reverse) :
    Reads K (fields (fuel + 1) a fs) (.sign "\x7d" :: u :: us) (u :: us) R := by
  rw [fields]
  refine Reads.bind Reads.accept fun found hfound => ?_
  subst hfound
  exact Reads.pure h

/-- A name of a map is read once. -/
def IsNew (name : String) (fs : List Field) : Prop :=
  (fs.any fun f => match f with | .mk m _ => m = name) = false

theorem reads_fields_last (new : IsNew name fs)
    (value : Reads K (expression fuel a) (t :: ts) (.sign "\x7d" :: u :: us) P)
    (h : ∀ e, P e → R (.mk name e :: fs).reverse) :
    Reads K (fields (fuel + 1) a fs) (.text name :: .sign ":" :: t :: ts) (u :: us) R := by
  rw [fields]
  refine Reads.bind (Reads.accept_other (by simp)) fun found hfound => ?_
  subst hfound
  refine Reads.bind Reads.take fun n hn => ?_
  simp only [hn]
  refine Reads.bind (Reads.pure (P := (· = name)) rfl) ?_
  rintro _ rfl
  split
  · rename_i twice
    exact absurd (new.symm.trans twice) (by decide)
  refine Reads.bind Reads.expect fun _ _ => Reads.bind value fun e he => ?_
  refine Reads.bind Reads.take fun q hq => ?_
  simp only [hq, if_true]
  exact Reads.pure (h e he)

theorem reads_fields_cons (new : IsNew name fs)
    (value : Reads K (expression fuel a) (t :: ts) (.sign "," :: u :: us) P)
    (others : ∀ e, P e → Reads K (fields fuel a (.mk name e :: fs)) (u :: us) vs R) :
    Reads K (fields (fuel + 1) a fs) (.text name :: .sign ":" :: t :: ts) vs R := by
  have comma : Token.sign "," ≠ .sign "\x7d" := by decide
  rw [fields]
  refine Reads.bind (Reads.accept_other (by simp)) fun found hfound => ?_
  subst hfound
  refine Reads.bind Reads.take fun n hn => ?_
  simp only [hn]
  refine Reads.bind (Reads.pure (P := (· = name)) rfl) ?_
  rintro _ rfl
  split
  · rename_i twice
    exact absurd (new.symm.trans twice) (by decide)
  refine Reads.bind Reads.expect fun _ _ => Reads.bind value fun e he => ?_
  refine Reads.bind Reads.take fun q hq => ?_
  simp only [hq, comma, if_false, if_true]
  exact others e he

end

/-! ## Statements -/

theorem reads_assignment {p q : Pos} :
    Reads K (assignment (some "+") (.variable "code" p) e q) ts ts
      (· = Outline.appending e p q) := by
  intro r hr ht
  refine ⟨_, r, ?_, rfl, hr, ht⟩
  have free := hr.vars "code"
  simp only [assignment, Bind.bind, StateT.bind, get, getThe, MonadStateOf.get, StateT.get,
    Pure.pure, Except.pure, Except.bind]
  rfl

theorem reads_appending
    (h : Reads K (expression (fuel + 4) a.inner) (u :: us) (.sign ";" :: ts) P) :
    Reads K (statement (fuel + 5) a) (.name "code" :: .sign "+=" :: u :: us) (.sign ";" :: ts)
      (∃ e p q, P e ∧ · = Outline.appending e p q) := by
  rw [statement]
  refine Reads.bind Reads.peek fun p hp => ?_
  simp only [hp]
  refine Reads.bind (reads_variable (by simp [stops])) fun target ⟨q, htarget⟩ => ?_
  subst htarget
  refine Reads.bind Reads.peek fun o ho => ?_
  simp only [ho]
  refine Reads.bind Reads.take fun _ _ => Reads.bind h fun e he => ?_
  exact reads_assignment.mono fun s hs => ⟨e, q, o.pos, he, hs⟩

theorem reads_declaration {name : String}
    (value : Reads K (expression fuel a.inner) (u :: us) (.sign ";" :: ts) P) :
    Reads K (statement (fuel + 2) a) (.word "let" :: .name name :: .sign "=" :: u :: us)
      (.sign ";" :: ts) (∃ e p, P e ∧ · = .declare name e false p) := by
  rw [statement]
  refine Reads.bind Reads.peek fun p hp => ?_
  simp only [hp]
  rw [declaration]
  refine Reads.bind Reads.take fun q _ => Reads.bind Reads.variableName ?_
  rintro ⟨_, r⟩ rfl
  refine Reads.bind Reads.accept fun found hfound => ?_
  subst hfound
  refine Reads.bind value fun e he => ?_
  exact Reads.bind Reads.bind_variable fun _ _ => Reads.pure ⟨e, q.pos, he, rfl⟩

/-- A variable is a statement if nothing is assigned to it. -/
theorem reads_mention {name : String} (ht : t ∈ stops) (ht' : assignmentOperator? t = none) :
    Reads K (statement (fuel + 5) a) (.name name :: t :: ts) (t :: ts)
      (∃ p, · = .expr (.variable name p)) := by
  have no_equals : t ≠ .sign "=" := by
    rintro rfl
    simp [stops] at ht
  rw [statement]
  refine Reads.bind Reads.peek fun q hq => ?_
  simp only [hq]
  refine Reads.bind (reads_variable ht) ?_
  rintro target ⟨v, rfl⟩
  refine Reads.bind Reads.peek fun w hw => ?_
  simp only [hw, no_equals, if_false, ht']
  exact Reads.pure ⟨v, rfl⟩

/-! ## Rows of statements -/

/-- A statement that ends with a semicolon, or without one. -/
def Closes (s : Stmt) (behind : List Token) : Prop :=
  s.isSkip = false ∧
    (s.endsItself = true ∧ behind = [] ∨ s.endsItself = false ∧ behind = [.sign ";"])

variable {acc : List Stmt} {behind : List Token} {S : Stmt → Prop} {R : List Stmt → Prop}

theorem reads_statements_cons {v : Token} (ht : t ≠ .sign "\x7d") (ht' : t ≠ .ended)
    (first : Reads K (statement (fuel + 1) a) (t :: ts) (behind ++ u :: v :: us)
      (fun s => S s ∧ Closes s behind))
    (rest : ∀ s, S s → Reads K (statements (fuel + 1) a (s :: acc)) (u :: v :: us) vs R) :
    Reads K (statements (fuel + 2) a acc) (t :: ts) vs R := by
  rw [statements]
  refine Reads.bind (Reads.accept_other ht) fun found hfound => ?_
  subst hfound
  refine Reads.bind Reads.peek fun p hp => ?_
  simp only [hp, ht', if_false]
  refine Reads.bind first fun s ⟨hs, skip, closes⟩ => ?_
  simp only [skip, Bool.false_eq_true, if_false]
  rcases closes with ⟨self, rfl⟩ | ⟨self, rfl⟩
  · rw [List.nil_append]
    by_cases hu : u = .sign "\x7d"
    · -- The brace behind the last statement is read at once, and not in the next round.
      have next := rest s hs
      rw [statements] at next
      subst hu
      refine Reads.bind_congr Reads.accept (fun found hfound => ?_) next
      subst hfound
      rfl
    · refine Reads.bind (Reads.accept_other hu) fun found hfound => ?_
      subst hfound
      simp only [self, Bool.false_eq_true, if_false, if_true]
      exact rest s hs
  · refine Reads.bind (Reads.accept_other (by simp)) fun found hfound => ?_
    subst hfound
    simp only [self, Bool.false_eq_true, if_false]
    exact Reads.bind Reads.expect fun _ _ => rest s hs

theorem reads_statements_nil (h : R acc.reverse) :
    Reads K (statements (fuel + 1) a acc) (.sign "\x7d" :: u :: us) (u :: us) R := by
  rw [statements]
  refine Reads.bind Reads.accept fun found hfound => ?_
  subst hfound
  exact Reads.pure h

/-- The last statement of a block stands in front of the brace. -/
theorem reads_statements_last (ht : t ≠ .sign "\x7d") (ht' : t ≠ .ended)
    (last : Reads K (statement fuel a) (t :: ts) (.sign "\x7d" :: u :: us)
      (fun s => R (s :: acc).reverse ∧ s.isSkip = false)) :
    Reads K (statements (fuel + 1) a acc) (t :: ts) (u :: us) R := by
  rw [statements]
  refine Reads.bind (Reads.accept_other ht) fun found hfound => ?_
  subst hfound
  refine Reads.bind Reads.peek fun p hp => ?_
  simp only [hp, ht', if_false]
  refine Reads.bind last fun s ⟨hs, skip⟩ => ?_
  simp only [skip, Bool.false_eq_true, if_false]
  refine Reads.bind Reads.accept fun found hfound => ?_
  subst hfound
  exact Reads.pure hs

theorem reads_script_last (ht : t ≠ .ended)
    (last : Reads K (statement fuel a) (t :: ts) [.ended]
      (fun s => R (s :: acc).reverse ∧ s.isSkip = false)) :
    Reads K (script (fuel + 1) a acc) (t :: ts) [.ended] R := by
  rw [script]
  refine Reads.bind Reads.peek fun p hp => ?_
  simp only [hp, ht, if_false]
  refine Reads.bind last fun s ⟨hs, skip⟩ => ?_
  simp only [skip, Bool.false_eq_true, if_false]
  refine Reads.bind Reads.peek fun q hq => ?_
  simp only [hq, if_true]
  exact Reads.pure hs

theorem reads_script_cons (ht : t ≠ .ended) (hu : u ≠ .ended)
    (first : Reads K (statement fuel a) (t :: ts) (behind ++ u :: us)
      (fun s => S s ∧ Closes s behind))
    (rest : ∀ s, S s → Reads K (script fuel a (s :: acc)) (u :: us) vs R) :
    Reads K (script (fuel + 1) a acc) (t :: ts) vs R := by
  rw [script]
  refine Reads.bind Reads.peek fun p hp => ?_
  simp only [hp, ht, if_false]
  refine Reads.bind first fun s ⟨hs, skip, closes⟩ => ?_
  simp only [skip, Bool.false_eq_true, if_false]
  rcases closes with ⟨self, rfl⟩ | ⟨self, rfl⟩
  · rw [List.nil_append]
    refine Reads.bind Reads.peek fun q hq => ?_
    simp only [hq, hu, self, if_false, if_true]
    exact rest s hs
  · refine Reads.bind Reads.peek fun q hq => ?_
    simp only [hq, self, Bool.false_eq_true, if_false, reduceCtorEq]
    exact Reads.bind Reads.expect fun _ _ => rest s hs

/-! ## Blocks -/

def within (a : Around) : Around := { a with top := false, depth := a.depth + 1 }

theorem reads_block (depth : a.depth < a.limit) (filled : ts ≠ [])
    (h : Reads K (statements fuel (within a) []) ts us R) :
    Reads K (block (fuel + 1) a) (.sign "\x7b" :: ts) us
      (∃ body p, R body ∧ · = .block body p) := by
  obtain ⟨t, ts, rfl⟩ := List.exists_cons_of_ne_nil filled
  rw [block]
  refine Reads.bind Reads.expect fun p _ => ?_
  refine Reads.bind (Reads.deeper depth) fun b hb => ?_
  subst hb
  exact Reads.bind (Reads.enclosed h) fun body hbody => Reads.pure ⟨body, p, hbody, rfl⟩

theorem closes_appending {p q : Pos} : Closes (Outline.appending e p q) [.sign ";"] :=
  ⟨rfl, .inr ⟨rfl, rfl⟩⟩

theorem closes_declaration {name : String} {constant : Bool} {p : Pos} :
    Closes (.declare name e constant p) [.sign ";"] :=
  ⟨rfl, .inr ⟨rfl, rfl⟩⟩

theorem reads_block_appending {v : Token} (depth : a.depth < a.limit)
    (h : Reads K (expression (fuel + 4) (within a)) (u :: us)
      (.sign ";" :: .sign "\x7d" :: v :: vs) P) :
    Reads K (block (fuel + 7) a) (.sign "\x7b" :: .name "code" :: .sign "+=" :: u :: us) (v :: vs)
      (∃ e p q b, P e ∧ · = .block [Outline.appending e p q] b) := by
  have first : Reads K (statement (fuel + 5) (within a)) (.name "code" :: .sign "+=" :: u :: us)
      ([.sign ";"] ++ .sign "\x7d" :: v :: vs)
      (fun s => (∃ e p q, P e ∧ s = Outline.appending e p q) ∧ Closes s [.sign ";"]) := by
    refine Reads.mono (@reads_appending K fuel (within a) u _ us P h) ?_
    rintro s ⟨e, p, q, he, rfl⟩
    exact ⟨⟨e, p, q, he, rfl⟩, closes_appending⟩
  have inside : Reads K (statements (fuel + 6) (within a) [])
      (.name "code" :: .sign "+=" :: u :: us) (v :: vs)
      (∃ e p q, P e ∧ · = [Outline.appending e p q]) := by
    refine reads_statements_cons (by simp) (by simp) first ?_
    rintro s ⟨e, p, q, he, rfl⟩
    exact reads_statements_nil ⟨e, p, q, he, rfl⟩
  refine (reads_block depth (by simp) inside).mono ?_
  rintro s ⟨body, b, ⟨e, p, q, he, rfl⟩, rfl⟩
  exact ⟨e, p, q, b, he, rfl⟩

/-! ## The statements of an outline -/

/-- What is guarded by itself, and the text that stands for it otherwise. -/
theorem reads_guarded_of {fallback : String} {v : Token} (depth : a.depth + 2 ≤ a.limit)
    (h : Reads K (expression (fuel + 4) { a with top := false, depth := a.depth + 2 }) (u :: us)
      (.sign ";" :: .sign "\x7d" :: .word "catch" :: .sign "\x7b" :: .name "code" :: .sign "+=" ::
        .text fallback :: .sign ";" :: .sign "\x7d" :: v :: vs) P) :
    Reads K (statement (fuel + 9) a)
      (.word "try" :: .sign "\x7b" :: .name "code" :: .sign "+=" :: u :: us) (v :: vs)
      (fun s => (∃ e p q b p' q' u' b' w, P e ∧ s = .attempt (.block [Outline.appending e p q] b)
        none (.block [Outline.appending (.const (.string fallback) u') p' q'] b') w) ∧
          Closes s []) := by
  rw [statement]
  refine Reads.bind Reads.peek fun p hp => ?_
  simp only [hp]
  refine Reads.bind (Reads.deeper (by omega)) ?_
  rintro _ rfl
  rw [attempt]
  refine Reads.bind Reads.take fun w _ => ?_
  refine Reads.bind (reads_block_appending (by simp; omega) h) ?_
  rintro body ⟨e, p, q, b, he, rfl⟩
  refine Reads.bind Reads.expect fun _ _ => ?_
  refine Reads.bind (Reads.accept_other (by simp)) fun found hfound => ?_
  subst hfound
  refine Reads.bind (reads_block_appending (by simp; omega) (reads_text (by simp [stops]))) ?_
  rintro handler ⟨_, p', q', b', ⟨u', rfl⟩, rfl⟩
  exact Reads.pure ⟨⟨e, p, q, b, p', q', u', b', w.pos, he, rfl⟩, rfl, .inl ⟨rfl, rfl⟩⟩

theorem reads_guarded {name fallback : String} {v : Token} (depth : a.depth + 3 ≤ a.limit) :
    Reads K (statement (fuel + 13) a)
      (.word "try" :: .sign "\x7b" :: .name "code" :: .sign "+=" :: .name "_render" ::
        .sign "(" :: .name name :: .sign ")" :: .sign ";" :: .sign "\x7d" :: .word "catch" ::
        .sign "\x7b" :: .name "code" :: .sign "+=" :: .text fallback :: .sign ";" ::
        .sign "\x7d" :: v :: vs) (v :: vs)
      (fun s => (∀ rest ss, Outline.Shape rest ss →
        Outline.Shape (.guarded name fallback rest) (s :: ss)) ∧ Closes s []) := by
  refine (reads_guarded_of (by omega) (reads_call (by simp [stops]) (by simp; omega))).mono ?_
  rintro _ ⟨⟨_, _, _, _, _, _, _, _, _, ⟨_, _, rfl⟩, rfl⟩, closes⟩
  exact ⟨fun rest ss h => .guarded _ _ _ _ _ _ _ _ _ _ h, closes⟩

/-- The statements in front of a brace are read up to it, and `R` holds for them. -/
def ReadsBody (K : List Function → Prop) (fuel : Nat) (a : Around) (ts : List Token)
    (R : List Stmt → Prop) : Prop :=
  ∀ acc u us, Reads K (statements fuel a acc) (ts ++ .sign "\x7d" :: u :: us) (u :: us)
    (∃ more, · = acc.reverse ++ more ∧ R more)

theorem reads_body_block (depth : a.depth < a.limit) (h : ReadsBody K fuel (within a) ts R) :
    Reads K (block (fuel + 1) a) (.sign "\x7b" :: (ts ++ .sign "\x7d" :: u :: us)) (u :: us)
      (∃ body p, R body ∧ · = .block body p) := by
  refine reads_block depth (by simp) ((h [] u us).mono ?_)
  rintro ss ⟨more, rfl, holds⟩
  exact holds

theorem reads_noBlock (hu : u ≠ .sign "\x7b") :
    Reads K noBlock (u :: us) (u :: us) (fun _ => True) := by
  refine Reads.bind Reads.peek fun p hp => ?_
  simp only [hp, hu, if_false]
  exact Reads.pure trivial

/-- An expression in front of a block is a condition if it may be a boolean. -/
theorem reads_condition_of (hu : u ≠ .sign "\x7b") (bool : ∀ e, P e → e.maybeBool = true)
    (h : Reads K (expression fuel a.inner) (u :: us) (.sign "\x7b" :: ts) P) :
    Reads K (condition (fuel + 1) a) (u :: us) (.sign "\x7b" :: ts) P := by
  rw [condition]
  refine Reads.bind (reads_noBlock hu) fun _ _ => Reads.bind h fun e he => ?_
  have same : Reads K (asCondition e) (.sign "\x7b" :: ts) (.sign "\x7b" :: ts) (· = e) := by
    rw [asCondition, if_pos (bool e he)]
    exact Reads.pure rfl
  refine Reads.bind same ?_
  rintro e rfl
  refine Reads.bind (show Reads K noAssignment _ (.sign "\x7b" :: ts) (fun _ => True) from ?_)
    fun _ _ => Reads.pure he
  refine Reads.bind Reads.peek fun q hq => ?_
  have noOperator : (assignmentOperator? (.sign "\x7b")).isSome = false := by decide
  have noEquals : Token.sign "\x7b" ≠ .sign "=" := by decide
  simp only [hq, noEquals, noOperator, Bool.false_eq_true, if_false]
  exact Reads.pure trivial

theorem reads_condition {name : String} :
    Reads K (condition (fuel + 5) a) (.name name :: .sign "\x7b" :: ts) (.sign "\x7b" :: ts)
      (∃ p, · = .variable name p) := by
  refine reads_condition_of (by simp) ?_ (reads_variable (by simp [stops]))
  rintro _ ⟨p, rfl⟩
  rfl

/-- A conditional without a second part, in front of a token that is no `else`. -/
theorem reads_branch_alone {ys : List Token} {Y : List Stmt → Prop} {v : Token}
    (hv : v ≠ .word "else") (depth : a.depth + 2 ≤ a.limit)
    (hc : Reads K (condition (fuel + 4) { a with depth := a.depth + 1 }) (u :: us)
      (.sign "\x7b" :: (ys ++ .sign "\x7d" :: v :: vs)) P)
    (hy : ReadsBody K (fuel + 3) { a with top := false, depth := a.depth + 2 } ys Y) :
    Reads K (statement (fuel + 6) a) (.word "if" :: u :: us) (v :: vs)
      (fun s => (∃ c yes p q w, P c ∧ Y yes ∧ s = .branch c (.block yes p) (.skip q) w) ∧
        Closes s []) := by
  rw [statement]
  refine Reads.bind Reads.peek fun p hp => ?_
  simp only [hp]
  refine Reads.bind (Reads.deeper (by omega)) fun b hb => ?_
  subst hb
  rw [branch]
  refine Reads.bind Reads.take fun q _ => Reads.bind hc fun c hc => ?_
  refine Reads.bind (reads_body_block (by simp; omega) hy) ?_
  rintro y ⟨yes, py, holds_yes, rfl⟩
  refine Reads.bind (Reads.accept_other hv) fun found hfound => ?_
  subst hfound
  exact Reads.pure ⟨⟨c, yes, py, q.pos, q.pos, hc, holds_yes, rfl⟩, rfl, .inl ⟨rfl, rfl⟩⟩

theorem reads_branch {name : String} {ys ns : List Token} {Y N : List Stmt → Prop} {v : Token}
    (depth : a.depth + 2 ≤ a.limit)
    (hy : ReadsBody K (fuel + 4) { a with top := false, depth := a.depth + 2 } ys Y)
    (hn : ReadsBody K (fuel + 4) { a with top := false, depth := a.depth + 2 } ns N) :
    Reads K (statement (fuel + 7) a)
      (.word "if" :: .name name :: .sign "\x7b" :: (ys ++ .sign "\x7d" :: .word "else" ::
        .sign "\x7b" :: (ns ++ .sign "\x7d" :: v :: vs))) (v :: vs)
      (fun s => (∃ yes no p q u w, Y yes ∧ N no ∧
        s = .branch (.variable name p) (.block yes q) (.block no u) w) ∧ Closes s []) := by
  rw [statement]
  refine Reads.bind Reads.peek fun p hp => ?_
  simp only [hp]
  refine Reads.bind (Reads.deeper (by omega)) fun b hb => ?_
  subst hb
  rw [branch]
  refine Reads.bind Reads.take fun q _ => ?_
  refine Reads.bind reads_condition ?_
  rintro c ⟨pc, rfl⟩
  refine Reads.bind (reads_body_block (by simp; omega) hy) ?_
  rintro y ⟨yes, py, holds_yes, rfl⟩
  refine Reads.bind Reads.accept fun found hfound => ?_
  subst hfound
  refine Reads.bind Reads.peek fun u hu => ?_
  simp only [hu, reduceCtorEq, if_false]
  refine Reads.bind (reads_body_block (by simp; omega) hn) ?_
  rintro n ⟨no, pn, holds_no, rfl⟩
  exact Reads.pure ⟨⟨yes, no, pc, py, pn, q.pos, holds_yes, holds_no, rfl⟩, rfl, .inl ⟨rfl, rfl⟩⟩

theorem reads_loopNames {name : String} :
    Reads K loopNames (.name name :: u :: ts) (u :: ts) (· = (name, none)) := by
  refine Reads.bind (Reads.accept_other (by simp)) fun found hfound => ?_
  subst hfound
  refine Reads.bind Reads.variableName ?_
  rintro ⟨_, p⟩ rfl
  exact Reads.pure rfl

theorem reads_each {name subject : String} {bs : List Token} {v : Token}
    (depth : a.depth + 2 ≤ a.limit)
    (hb : ReadsBody K (fuel + 4)
      { a with top := false, inLoop := true, depth := a.depth + 2 } bs R) :
    Reads K (statement (fuel + 7) a)
      (.word "for" :: .name name :: .word "in" :: .name subject :: .sign "\x7b" ::
        (bs ++ .sign "\x7d" :: v :: vs)) (v :: vs)
      (fun s => (∃ body p q u, R body ∧
        s = .each name none (.variable subject p) (.block body q) u) ∧ Closes s []) := by
  rw [statement]
  refine Reads.bind Reads.peek fun p hp => ?_
  simp only [hp]
  refine Reads.bind (Reads.deeper (by omega)) fun b hb => ?_
  subst hb
  rw [forLoop]
  refine Reads.bind Reads.take fun q _ => Reads.bind reads_loopNames ?_
  rintro _ rfl
  refine Reads.bind Reads.expect fun _ _ => Reads.bind (reads_noBlock (by simp)) fun _ _ => ?_
  refine Reads.bind (reads_variable (by simp [stops])) ?_
  rintro e ⟨pe, rfl⟩
  simp only [Expr.maybeIterable, Bool.not_true, Bool.false_eq_true, if_false]
  refine Reads.enclosed (Reads.bind Reads.bind_variable fun _ _ => ?_)
  refine Reads.bind (reads_body_block (by simp; omega) hb) ?_
  rintro b ⟨body, pb, holds, rfl⟩
  exact Reads.pure ⟨⟨body, pe, pb, q.pos, holds, rfl⟩, rfl, .inl ⟨rfl, rfl⟩⟩

/-! ## Statements one by one -/

/-- The tokens are those of one statement, for which `S` holds. -/
def ReadsFirst (K : List Function → Prop) (fuel : Nat) (a : Around) (ts : List Token)
    (S : Stmt → Prop) : Prop :=
  ∃ t its behind, ts = t :: its ++ behind ∧ t ≠ .sign "\x7d" ∧ t ≠ .ended ∧
    ∀ u us, Reads K (statement fuel a) (t :: its ++ behind ++ u :: us) (behind ++ u :: us)
      (fun s => S s ∧ Closes s behind)

/-- A row that begins with a statement for which `S` holds, behind which `R` holds for the others. -/
def Begins (S : Stmt → Prop) (R : List Stmt → Prop) (ss : List Stmt) : Prop :=
  ∃ s more, ss = s :: more ∧ S s ∧ R more

theorem ReadsFirst.mono {S' : Stmt → Prop} (h : ReadsFirst K fuel a ts S)
    (weaker : ∀ s, S s → S' s) : ReadsFirst K fuel a ts S' := by
  obtain ⟨t, its, behind, tokens, ht, ht', first⟩ := h
  exact ⟨t, its, behind, tokens, ht, ht', fun u us =>
    (first u us).mono fun s ⟨holds, closes⟩ => ⟨weaker s holds, closes⟩⟩

theorem ReadsBody.mono {R' : List Stmt → Prop} (h : ReadsBody K fuel a ts R)
    (weaker : ∀ ss, R ss → R' ss) : ReadsBody K fuel a ts R' :=
  fun acc u us => (h acc u us).mono fun _ ⟨more, eq, holds⟩ => ⟨more, eq, weaker more holds⟩

theorem readsBody_nil (h : R []) : ReadsBody K (fuel + 1) a [] R :=
  fun acc _ _ => reads_statements_nil ⟨[], by simp, h⟩

theorem readsBody_cons (first : ReadsFirst K (fuel + 1) a ts S)
    (h : ReadsBody K (fuel + 1) a us R) : ReadsBody K (fuel + 2) a (ts ++ us) (Begins S R) := by
  intro acc x xs
  obtain ⟨t, its, behind, rfl, ht, ht', first⟩ := first
  -- A row goes on by two tokens, of which the second may stand behind the brace.
  obtain ⟨u, v, vs, eq⟩ : ∃ u v vs, us ++ .sign "\x7d" :: x :: xs = u :: v :: vs := by
    match us with
    | [] => exact ⟨.sign "\x7d", x, xs, rfl⟩
    | [v] => exact ⟨v, .sign "\x7d", x :: xs, rfl⟩
    | v :: w :: more => exact ⟨v, w, more ++ .sign "\x7d" :: x :: xs, rfl⟩
  rw [List.append_assoc, eq]
  refine reads_statements_cons ht ht' (first u (v :: vs)) fun s hs => ?_
  rw [← eq]
  refine (h (s :: acc) x xs).mono ?_
  rintro ss ⟨more, rfl, holds⟩
  exact ⟨s :: more, by simp, s, more, rfl, hs, holds⟩

/-- The statements of a script are read up to the variable `code` at its end. -/
def ReadsScript (K : List Function → Prop) (fuel : Nat) (a : Around) (ts : List Token)
    (R : List Stmt → Prop) : Prop :=
  ∀ acc, Reads K (script fuel a acc) (ts ++ [.name "code", .ended]) [.ended]
    (∃ more p, · = acc.reverse ++ more ++ [.expr (.variable "code" p)] ∧ R more)

theorem ReadsScript.mono {R' : List Stmt → Prop} (h : ReadsScript K fuel a ts R)
    (weaker : ∀ ss, R ss → R' ss) : ReadsScript K fuel a ts R' :=
  fun acc => (h acc).mono fun _ ⟨more, p, eq, holds⟩ => ⟨more, p, eq, weaker more holds⟩

theorem readsScript_nil (h : R []) : ReadsScript K (fuel + 6) a [] R := by
  intro acc
  refine reads_script_last (by simp) ((reads_mention (by simp [stops]) rfl).mono ?_)
  rintro s ⟨v, rfl⟩
  exact ⟨⟨[], v, by simp, h⟩, rfl⟩

theorem readsScript_cons (first : ReadsFirst K fuel a ts S) (h : ReadsScript K fuel a us R)
    (open_ : us.head? ≠ some .ended) : ReadsScript K (fuel + 1) a (ts ++ us) (Begins S R) := by
  intro acc
  obtain ⟨t, its, behind, rfl, -, ht, first⟩ := first
  obtain ⟨u, vs, eq, hu⟩ : ∃ u vs, us ++ [.name "code", .ended] = u :: vs ∧ u ≠ .ended := by
    cases us with
    | nil => exact ⟨.name "code", [.ended], rfl, by simp⟩
    | cons u us => exact ⟨u, _, rfl, by simpa using open_⟩
  rw [List.append_assoc, eq]
  refine reads_script_cons ht hu (first u vs) fun s hs => ?_
  rw [← eq]
  refine (h (s :: acc)).mono ?_
  rintro ss ⟨more, p, rfl, holds⟩
  exact ⟨s :: more, p, by simp, s, more, rfl, hs, holds⟩

theorem readsFirst_branch {name : String} {ys ns : List Token} {Y N : List Stmt → Prop}
    (depth : a.depth + 2 ≤ a.limit)
    (hy : ReadsBody K (fuel + 4) { a with top := false, depth := a.depth + 2 } ys Y)
    (hn : ReadsBody K (fuel + 4) { a with top := false, depth := a.depth + 2 } ns N) :
    ReadsFirst K (fuel + 7) a
      ([.word "if", .name name, .sign "\x7b"] ++ ys ++
        [.sign "\x7d", .word "else", .sign "\x7b"] ++ ns ++ [.sign "\x7d"])
      (∃ yes no p q u w, Y yes ∧ N no ∧
        · = .branch (.variable name p) (.block yes q) (.block no u) w) := by
  refine ⟨.word "if", .name name :: .sign "\x7b" :: (ys ++ .sign "\x7d" :: .word "else" ::
    .sign "\x7b" :: (ns ++ [.sign "\x7d"])), [], by simp, by simp, by simp, fun u us => ?_⟩
  have first := @reads_branch K fuel a us name ys ns Y N u depth hy hn
  simpa using first

theorem readsFirst_each {name subject : String} {bs : List Token} (depth : a.depth + 2 ≤ a.limit)
    (hb : ReadsBody K (fuel + 4)
      { a with top := false, inLoop := true, depth := a.depth + 2 } bs R) :
    ReadsFirst K (fuel + 7) a
      ([.word "for", .name name, .word "in", .name subject, .sign "\x7b"] ++ bs ++ [.sign "\x7d"])
      (∃ body p q u, R body ∧ · = .each name none (.variable subject p) (.block body q) u) := by
  refine ⟨.word "for", .name name :: .word "in" :: .name subject :: .sign "\x7b" ::
    (bs ++ [.sign "\x7d"]), [], by simp, by simp, by simp, fun u us => ?_⟩
  have first := @reads_each K fuel a us R name subject bs u depth hb
  simpa using first

/-- A value of one token that is appended to the content. -/
theorem readsFirst_appending
    (value : ∀ v vs, Reads K (expression (fuel + 4) a.inner) (u :: .sign ";" :: v :: vs)
      (.sign ";" :: v :: vs) P) :
    ReadsFirst K (fuel + 5) a [.name "code", .sign "+=", u, .sign ";"]
      (∃ e p q, P e ∧ · = Outline.appending e p q) := by
  refine ⟨.name "code", [.sign "+=", u], [.sign ";"], rfl, by simp, by simp, fun v vs => ?_⟩
  refine Reads.mono (reads_appending (value v vs)) ?_
  rintro s ⟨e, p, q, he, rfl⟩
  exact ⟨⟨e, p, q, he, rfl⟩, closes_appending⟩

theorem readsFirst_text {text : String} :
    ReadsFirst K (fuel + 5) a [.name "code", .sign "+=", .text text, .sign ";"]
      (∃ p q u, · = Outline.appending (.const (.string text) u) p q) := by
  refine (readsFirst_appending fun _ _ => reads_text (by simp [stops])).mono ?_
  rintro s ⟨e, p, q, ⟨w, rfl⟩, rfl⟩
  exact ⟨p, q, w, rfl⟩

theorem readsFirst_declaration {name : String}
    (value : ∀ v vs, Reads K (expression fuel a.inner) (u :: us ++ .sign ";" :: v :: vs)
      (.sign ";" :: v :: vs) P) :
    ReadsFirst K (fuel + 2) a ([.word "let", .name name, .sign "="] ++ (u :: us) ++ [.sign ";"])
      (∃ e p, P e ∧ · = .declare name e false p) := by
  refine ⟨.word "let", .name name :: .sign "=" :: u :: us, [.sign ";"], by simp, by simp, by simp,
    fun v vs => ?_⟩
  have closes (s : Stmt) (h : ∃ e p, P e ∧ s = .declare name e false p) :
      (∃ e p, P e ∧ s = .declare name e false p) ∧ Closes s [.sign ";"] := by
    obtain ⟨e, p, he, rfl⟩ := h
    exact ⟨⟨e, p, he, rfl⟩, closes_declaration⟩
  simpa using (@reads_declaration K fuel a u (v :: vs) _ P name (value v vs)).mono closes

/-- The declaration of the content, which is empty at first. -/
theorem readsFirst_content :
    ReadsFirst K (fuel + 6) a [.word "let", .name "code", .sign "=", .text "", .sign ";"]
      (∃ p q, · = .declare "code" (.const (.string "") p) false q) := by
  refine (@readsFirst_declaration K (fuel + 4) a (.text "") [] _ "code" fun _ _ =>
    reads_text (by simp [stops])).mono ?_
  rintro s ⟨e, q, ⟨p, rfl⟩, rfl⟩
  exact ⟨p, q, rfl⟩

/-! ## Outlines -/

variable {o rest : Outline}

/-- A statement that stands in front of the others of an outline. -/
def Fronts (o rest : Outline) (s : Stmt) : Prop :=
  ∀ ss, Outline.Shape rest ss → Outline.Shape o (s :: ss)

theorem readsFirst_append {text : String} :
    ReadsFirst K (fuel + 5) a [.name "code", .sign "+=", .text text, .sign ";"]
      (Fronts (.append text rest) rest) := by
  refine readsFirst_text.mono ?_
  rintro _ ⟨p, q, u, rfl⟩ ss h
  exact .append p q u h

theorem readsFirst_guarded {name fallback : String} (depth : a.depth + 3 ≤ a.limit) :
    ReadsFirst K (fuel + 13) a [.word "try", .sign "\x7b", .name "code", .sign "+=",
        .name "_render", .sign "(", .name name, .sign ")", .sign ";", .sign "\x7d", .word "catch",
        .sign "\x7b", .name "code", .sign "+=", .text fallback, .sign ";", .sign "\x7d"]
      (Fronts (.guarded name fallback rest) rest) := by
  refine ⟨.word "try", [.sign "\x7b", .name "code", .sign "+=", .name "_render", .sign "(",
    .name name, .sign ")", .sign ";", .sign "\x7d", .word "catch", .sign "\x7b", .name "code",
    .sign "+=", .text fallback, .sign ";", .sign "\x7d"], [], rfl, by simp, by simp,
    fun u us => ?_⟩
  exact (reads_guarded depth).mono fun s ⟨h, closes⟩ => ⟨h rest, closes⟩

theorem Fronts.branch {name : String} {yes no : Outline} {s : Stmt}
    (h : ∃ ys ns p q u w, Outline.Shape yes ys ∧ Outline.Shape no ns ∧
      s = .branch (.variable name p) (.block ys q) (.block ns u) w) :
    Fronts (.branch name yes no rest) rest s := by
  obtain ⟨ys, ns, p, q, u, w, shape_yes, shape_no, rfl⟩ := h
  exact fun ss behind => .branch p q u w shape_yes shape_no behind

theorem Fronts.each {name subject : String} {body : Outline} {s : Stmt}
    (h : ∃ bs p q u, Outline.Shape body bs ∧
      s = .each name none (.variable subject p) (.block bs q) u) :
    Fronts (.each name subject body rest) rest s := by
  obtain ⟨bs, p, q, u, shape, rfl⟩ := h
  exact fun ss behind => .each p q u shape behind

/-- The statements of an outline in front of others, for which `R` holds. -/
def Onto (o : Outline) (R : List Stmt → Prop) (ss : List Stmt) : Prop :=
  ∃ front behind, ss = front ++ behind ∧ Outline.Shape o front ∧ R behind

theorem Fronts.onto {ss : List Stmt} (h : Begins (Fronts o rest) (Onto rest R) ss) : Onto o R ss := by
  obtain ⟨s, _, rfl, fronts, front, behind, rfl, shape, holds⟩ := h
  exact ⟨s :: front, behind, rfl, fronts front shape, holds⟩

theorem Onto.shape {ss : List Stmt} (h : Onto o (· = []) ss) : Outline.Shape o ss := by
  obtain ⟨front, _, rfl, shape, rfl⟩ := h
  rwa [List.append_nil]

/-- A way to read rows of statements, be it in a block or in a script. -/
structure Rowwise (K : List Function → Prop) (a : Around)
    (rows : Nat → List Token → (List Stmt → Prop) → Prop) : Prop where
  mono : ∀ {fuel ts R S}, rows fuel ts R → (∀ ss, R ss → S ss) → rows fuel ts S
  cons : ∀ {fuel ts us S R}, ReadsFirst K (fuel + 1) a ts S → rows (fuel + 1) us R →
    us.head? ≠ some .ended → rows (fuel + 2) (ts ++ us) (Begins S R)

theorem rowwise_body : Rowwise K a fun fuel ts R => ReadsBody K fuel a ts R :=
  ⟨ReadsBody.mono, fun first behind _ => readsBody_cons first behind⟩

theorem rowwise_script : Rowwise K a fun fuel ts R => ReadsScript K fuel a ts R :=
  ⟨ReadsScript.mono, readsScript_cons⟩

theorem head?_tokens_append (o : Outline) (open_ : us.head? ≠ some .ended) :
    (o.tokens ++ us).head? ≠ some .ended := by
  cases o with
  | done => exact open_
  | _ => simp [Outline.tokens]

/-- What can be read behind an outline can be read with the outline in front of it. -/
theorem reads_onto {rows : Nat → List Token → (List Stmt → Prop) → Prop} {n : Nat} (o : Outline)
    {fuel : Nat} {a : Around} {us : List Token} {R : List Stmt → Prop} (way : Rowwise K a rows)
    (behind : ∀ fuel, n ≤ fuel → rows fuel us R) (open_ : us.head? ≠ some .ended)
    (enough : 2 * o.tokens.length + n ≤ fuel) (room : 16 ≤ n) (depth : a.depth + o.levels ≤ a.limit) :
    rows fuel (o.tokens ++ us) (Onto o R) := by
  -- The blocks of a statement are read as rows too, which end with the brace.
  have ends (b : Around) (fuel : Nat) (h : 16 ≤ fuel) : ReadsBody K fuel b [] (· = []) := by
    obtain ⟨k, rfl⟩ : ∃ k, fuel = k + 1 := ⟨fuel - 1, by omega⟩
    exact readsBody_nil rfl
  induction o generalizing rows n fuel a us R with
  | done =>
    rw [Outline.tokens, List.length_nil] at enough
    exact way.mono (behind fuel (by omega)) fun ss h => ⟨[], ss, rfl, .done, h⟩
  | append text rest ih =>
    obtain ⟨k, rfl⟩ : ∃ k, fuel = k + 6 := ⟨fuel - 6, by omega⟩
    simp only [Outline.tokens, List.length_append, List.length_cons] at enough
    rw [Outline.tokens, List.append_assoc]
    exact way.mono (way.cons readsFirst_append (ih way behind open_ (by omega) room depth)
      (head?_tokens_append rest open_)) fun _ => Fronts.onto
  | guarded name fallback rest ih =>
    obtain ⟨k, rfl⟩ : ∃ k, fuel = k + 14 := ⟨fuel - 14, by omega⟩
    simp only [Outline.tokens, List.length_append, List.length_cons] at enough
    rw [Outline.levels] at depth
    rw [Outline.tokens, List.append_assoc]
    exact way.mono (way.cons (readsFirst_guarded (by omega))
      (ih way behind open_ (by omega) room (by omega)) (head?_tokens_append rest open_))
      fun _ => Fronts.onto
  | branch name yes no rest ihy ihn ih =>
    obtain ⟨k, rfl⟩ : ∃ k, fuel = k + 8 := ⟨fuel - 8, by omega⟩
    simp only [Outline.tokens, List.length_append, List.length_cons] at enough
    rw [Outline.levels] at depth
    have inside := @rowwise_body K { a with top := false, depth := a.depth + 2 }
    have hy := ihy inside (ends _) (by simp) (show _ ≤ k + 4 by omega) (Nat.le_refl 16)
      (by simp; omega)
    have hn := ihn inside (ends _) (by simp) (show _ ≤ k + 4 by omega) (Nat.le_refl 16)
      (by simp; omega)
    rw [List.append_nil] at hy hn
    have first := @readsFirst_branch K k a name yes.tokens no.tokens _ _ (by omega)
      (hy.mono fun _ => Onto.shape) (hn.mono fun _ => Onto.shape)
    rw [Outline.tokens, List.append_assoc _ rest.tokens]
    exact way.mono (way.cons (first.mono fun _ => Fronts.branch)
      (ih way behind open_ (by omega) room (by omega)) (head?_tokens_append rest open_))
      fun _ => Fronts.onto
  | each name subject body rest ihb ih =>
    obtain ⟨k, rfl⟩ : ∃ k, fuel = k + 8 := ⟨fuel - 8, by omega⟩
    simp only [Outline.tokens, List.length_append, List.length_cons] at enough
    rw [Outline.levels] at depth
    have inside := @rowwise_body K { a with top := false, inLoop := true, depth := a.depth + 2 }
    have hb := ihb inside (ends _) (by simp) (show _ ≤ k + 4 by omega) (Nat.le_refl 16)
      (by simp; omega)
    rw [List.append_nil] at hb
    have first := @readsFirst_each K k a _ name subject body.tokens (by omega)
      (hb.mono fun _ => Onto.shape)
    rw [Outline.tokens, List.append_assoc _ rest.tokens]
    exact way.mono (way.cons (first.mono fun _ => Fronts.each)
      (ih way behind open_ (by omega) room (by omega)) (head?_tokens_append rest open_))
      fun _ => Fronts.onto

theorem reads_body (o : Outline) {fuel : Nat} {a : Around}
    (enough : 2 * o.tokens.length + 16 ≤ fuel) (depth : a.depth + o.levels ≤ a.limit) :
    ReadsBody K fuel a o.tokens (Outline.Shape o) := by
  have last : ∀ fuel, 16 ≤ fuel → ReadsBody K fuel a [] (· = []) := by
    intro fuel h
    obtain ⟨k, rfl⟩ : ∃ k, fuel = k + 1 := ⟨fuel - 1, by omega⟩
    exact readsBody_nil rfl
  have row := reads_onto o rowwise_body last (by simp) enough (Nat.le_refl 16) depth
  rw [List.append_nil] at row
  exact row.mono fun _ => Onto.shape

theorem head?_tokens_ne_ended (o : Outline) : o.tokens.head? ≠ some .ended := by
  rw [← List.append_nil o.tokens]
  exact head?_tokens_append o (by simp)

theorem reads_script (o : Outline) {fuel : Nat} {a : Around}
    (enough : 2 * o.tokens.length + 16 ≤ fuel) (depth : a.depth + o.levels ≤ a.limit) :
    ReadsScript K fuel a o.tokens (Outline.Shape o) := by
  have last : ∀ fuel, 16 ≤ fuel → ReadsScript K fuel a [] (· = []) := by
    intro fuel h
    obtain ⟨k, rfl⟩ : ∃ k, fuel = k + 6 := ⟨fuel - 6, by omega⟩
    exact readsScript_nil rfl
  have row := reads_onto o rowwise_script last (by simp) enough (Nat.le_refl 16) depth
  rw [List.append_nil] at row
  exact row.mono fun _ => Onto.shape

end Parser

/-! ## Whole scripts -/

/-- Reads a script that may be nested `limit` levels deep. -/
def parseWithin (limit : Nat) (text : String) : Except SyntaxFault Program := do
  let ts := tokens text
  let (body, r) ←
    Parser.script (Parser.fuelFor ts) ⟨true, false, false, false, 0, limit⟩ [] ⟨ts, [], [], []⟩
  return ⟨r.functions.reverse, body⟩

theorem parseWithin_depthLimit (text : String) : parseWithin Parser.depthLimit text = parse text :=
  rfl

theorem parseWithin_of_reads {limit : Nat} {text : String} {ts : List Token}
    {P : List Stmt → Prop} (none : K []) (h : (tokens text).map (·.token) = ts)
    (whole : Reads K (Parser.script (Parser.fuelFor (tokens text))
      ⟨true, false, false, false, 0, limit⟩ []) ts [.ended] P) :
    ∃ functions body, parseWithin limit text = .ok ⟨functions.reverse, body⟩ ∧ K functions ∧
      P body := by
  obtain ⟨body, r, run, holds, calm, -⟩ := whole ⟨tokens text, [], [], []⟩ ⟨by simp, none⟩ h
  refine ⟨r.functions, body, ?_, calm.functions, holds⟩
  simp only [parseWithin, run, bind, Except.bind, pure, Except.pure]

theorem parse_of_reads {text : String} {ts : List Token} {P : List Stmt → Prop}
    (h : (tokens text).map (·.token) = ts)
    (whole : Reads (· = []) (Parser.script (Parser.fuelFor (tokens text))
      ⟨true, false, false, false, 0, Parser.depthLimit⟩ []) ts [.ended] P) :
    ∃ body, parse text = .ok ⟨[], body⟩ ∧ P body := by
  obtain ⟨_, body, parsed, rfl, holds⟩ := parseWithin_of_reads (K := (· = [])) rfl h whole
  exact ⟨body, parsed, holds⟩

/-- The tokens of a script that builds the variable `code`, around those of its statements. -/
def frame (ts : List Token) : List Token :=
  [.word "let", .name "code", .sign "=", .text "", .sign ";"] ++ ts ++ [.name "code", .ended]

/-- A script that builds the variable `code` with statements for which `R` holds. -/
def IsFramed (R : List Stmt → Prop) (body : List Stmt) : Prop :=
  ∃ ss p q u, R ss ∧
    body = .declare "code" (.const (.string "") p) false q :: (ss ++ [.expr (.variable "code" u)])

theorem parseWithin_of_frame {limit : Nat} {text : String} {ts : List Token}
    {R : List Stmt → Prop} (none : K []) (h : (tokens text).map (·.token) = frame ts)
    (open_ : ts.head? ≠ some .ended)
    (rows : Parser.ReadsScript K (16 * ts.length + 175) ⟨true, false, false, false, 0, limit⟩
      ts R) :
    ∃ functions body, parseWithin limit text = .ok ⟨functions.reverse, body⟩ ∧ K functions ∧
      IsFramed R body := by
  have count : (tokens text).length = ts.length + 7 := by
    simpa [frame] using congrArg List.length h
  have fuel : Parser.fuelFor (tokens text) = 16 * ts.length + 175 + 1 := by
    rw [Parser.fuelFor, count]
    omega
  refine parseWithin_of_reads none h ?_
  obtain ⟨u, us, eq, hu⟩ :
      ∃ u us, ts ++ [.name "code", .ended] = u :: us ∧ u ≠ .ended := by
    cases ts with
    | nil => exact ⟨.name "code", [.ended], rfl, by simp⟩
    | cons u us => exact ⟨u, _, rfl, by simpa using open_⟩
  have first : Reads K (Parser.statement (16 * ts.length + 175) ⟨true, false, false, false, 0, limit⟩)
      (.word "let" :: .name "code" :: .sign "=" :: .text "" :: [.sign ";"] ++ u :: us)
      ([.sign ";"] ++ u :: us)
      (fun s => (∃ p q, s = .declare "code" (.const (.string "") p) false q) ∧
        Parser.Closes s [.sign ";"]) := by
    refine (Parser.reads_declaration (Parser.reads_text (by simp [Parser.stops]))).mono ?_
    rintro s ⟨e, q, ⟨p, rfl⟩, rfl⟩
    exact ⟨⟨p, q, rfl⟩, Parser.closes_declaration⟩
  have whole : frame ts =
      .word "let" :: .name "code" :: .sign "=" :: .text "" :: [.sign ";"] ++ u :: us := by
    rw [← eq]
    simp [frame]
  rw [fuel, whole]
  refine Parser.reads_script_cons (by simp) hu first ?_
  rintro s ⟨p, q, rfl⟩
  rw [← eq]
  refine (rows _).mono ?_
  rintro body ⟨more, v, rfl, holds⟩
  exact ⟨more, p, q, v, holds, by simp⟩

theorem parse_of_tokens {o : Outline} {text : String}
    (h : (tokens text).map (·.token) = o.scriptTokens ++ [.ended])
    (depth : o.levels ≤ Parser.depthLimit) :
    ∃ body, parse text = .ok ⟨[], body⟩ ∧ o.IsScript body := by
  have whole : (tokens text).map (·.token) = frame o.tokens := by
    rw [h, frame, Outline.scriptTokens]
    simp
  obtain ⟨_, body, parsed, rfl, script⟩ := parseWithin_of_frame (K := (· = [])) rfl whole
    (Parser.head?_tokens_ne_ended o) (Parser.reads_script o (by omega) (by simpa using depth))
  exact ⟨body, parsed, script⟩

end Stencil.Script
