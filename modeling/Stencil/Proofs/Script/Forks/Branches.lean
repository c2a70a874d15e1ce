import Stencil.Proofs.Script.Forks.Rows

/-!
# The blocks of a fork

Behind the word of a conditional the name of the mode is the whole condition.  The two blocks behind
it are read as statements that are the same but for their places, and both begin with an effect.
-/

namespace Stencil.Script

open Resolver (modeName)

namespace Parser

variable {fuel : Nat} {a : Around} {r s : Reading} {n : String} {p : Pos} {q : Placed}
  {more : List Placed}

/-! ## Names as expressions -/

/-- A token behind a name that is no part of its expression. -/
structure IsInert (t : Token) : Prop where
  loose : precedence t = 0
  alone : t ∉ [.sign "(", .sign "()", .sign "[", .sign "?[", .sign ".", .sign "?."]

theorem isInert_opening : IsInert (.sign "\x7b") := ⟨by decide, by decide⟩

theorem isInert_of_assigns {t : Token} (h : (assignmentOperator? t).isSome) : IsInert t := by
  unfold assignmentOperator? at h
  split at h
  · repeat' split at h
    all_goals first
      | (rename_i same; subst same; exact ⟨by decide, by decide⟩)
      | cases h
  · cases h

/-- From `r` to `s` one token is taken, and the token `q` comes next. -/
structure Steps (q : Placed) (more : List Placed) (r s : Reading) : Prop where
  rest : s.rest = q :: more
  vars : s.vars = r.vars
  functions : s.functions = r.functions

theorem take_cons (rest : r.rest = ⟨.name n, p⟩ :: q :: more) :
    Leaves Reader.take r fun _ s => Steps q more r s := by
  intro t s eq
  obtain ⟨-, rfl⟩ : _ = t ∧ { r with rest := q :: more } = s := by
    simpa [Reader.take, rest] using eq
  exact ⟨rfl, rfl, rfl⟩

theorem ahead_of_cons {t : Placed} (rest : r.rest = t :: more) : ahead r = t := by
  rw [ahead, rest]
  rfl

theorem steps_inert {root : Expr} {opened : Bool} (rest : r.rest = q :: more)
    (inert : IsInert q.token) :
    Leaves (steps fuel a root opened) r fun e s => e = root ∧ s = r := by
  cases fuel with
  | zero => exact .of_fails fails_tooDeep
  | succ fuel =>
    rw [steps]
    refine Leaves.peek_bind ?_
    rw [ahead_of_cons rest]
    have alone := inert.alone
    split
    · simp_all
    · simp_all
    · simp_all
    · simp_all
    · exact .pure ⟨rfl, rfl⟩

theorem primary_name (rest : r.rest = ⟨.name n, p⟩ :: q :: more) (inert : IsInert q.token) :
    Leaves (primary fuel a) r fun e s => e = .variable n p ∧ Steps q more r s := by
  cases fuel with
  | zero => exact .of_fails fails_tooDeep
  | succ fuel =>
    rw [primary]
    refine Leaves.peek_bind ?_
    rw [ahead_of_cons rest]
    refine (take_cons rest).bind fun _ s stepped => ?_
    refine Leaves.peek_bind ?_
    rw [ahead_of_cons stepped.rest]
    have alone := inert.alone
    split
    · simp_all
    · simp_all
    · refine Leaves.mention.bind ?_
      rintro _ u ⟨moved, same⟩
      refine (steps_inert (same.trans stepped.rest) inert).mono ?_
      rintro _ _ ⟨rfl, rfl⟩
      exact ⟨rfl, same.trans stepped.rest, moved.vars.trans stepped.vars,
        moved.functions.trans stepped.functions⟩

theorem expression_name (rest : r.rest = ⟨.name n, p⟩ :: q :: more) (inert : IsInert q.token) :
    Leaves (expression fuel a) r fun e s => e = .variable n p ∧ Steps q more r s := by
  cases fuel with
  | zero => exact .of_fails fails_tooDeep
  | succ fuel =>
    cases fuel with
    | zero => exact Leaves.of_fails (fails_tooDeep.bind)
    | succ fuel =>
      have first : Leaves (operand (fuel + 1) a) r fun e s =>
          e = .variable n p ∧ Steps q more r s := by
        rw [operand]
        refine Leaves.peek_bind ?_
        rw [ahead_of_cons rest]
        exact primary_name rest inert
      rw [expression]
      refine first.bind ?_
      rintro _ s ⟨rfl, stepped⟩
      rw [operation_succ]
      refine Leaves.peek_bind ?_
      have loose : strength a.inPattern (ahead s).token = 0 := by
        rw [ahead_of_cons stepped.rest]
        exact Nat.le_zero.1 (inert.loose ▸ strength_le a.inPattern q.token)
      dsimp only
      rw [loose, if_pos (by simp)]
      exact .pure ⟨rfl, stepped⟩

/-- Behind the word of a conditional, the name of the mode in front of a block is the condition. -/
theorem condition_name (rest : r.rest = ⟨.name n, p⟩ :: q :: more)
    (opening : q.token = .sign "\x7b") :
    Leaves (condition fuel a) r fun e s => e = .variable n p ∧ Steps q more r s := by
  cases fuel with
  | zero => exact .of_fails fails_tooDeep
  | succ fuel =>
    have no_block : Leaves noBlock r fun _ s => s = r := by
      refine Leaves.peek_bind ?_
      rw [ahead_of_cons rest]
      exact .pure rfl
    rw [condition]
    refine no_block.bind ?_
    rintro _ _ rfl
    refine (expression_name rest (opening ▸ isInert_opening)).bind ?_
    rintro _ s ⟨rfl, stepped⟩
    have accepted : Leaves (asCondition (.variable n p)) s fun e u => e = .variable n p ∧ u = s :=
      .pure ⟨rfl, rfl⟩
    have no_assignment : Leaves noAssignment s fun _ u => u = s := by
      refine Leaves.peek_bind ?_
      rw [ahead_of_cons stepped.rest, opening]
      exact .pure rfl
    refine accepted.bind ?_
    rintro _ u ⟨same, here⟩
    rw [same, here]
    refine no_assignment.bind fun _ v here => ?_
    rw [here]
    exact .pure ⟨rfl, stepped⟩

/-! ## Blocks that begin with an effect -/

theorem statements_acc {acc : List Stmt} :
    Leaves (statements fuel a acc) r fun ss _ => ∃ more, ss = acc.reverse ++ more := by
  induction fuel generalizing acc r with
  | zero => exact .of_fails fails_tooDeep
  | succ fuel ih =>
    have later {st : Stmt} {s : Reading} : Leaves (statements fuel a (st :: acc)) s
        fun ss _ => ∃ more, ss = acc.reverse ++ more := by
      refine ih.mono ?_
      rintro _ _ ⟨more, rfl⟩
      exact ⟨st :: more, by simp⟩
    rw [statements]
    refine .behind fun found s => ?_
    split
    · exact .pure ⟨[], (List.append_nil _).symm⟩
    · refine .behind fun p s => ?_
      split
      · exact .of_fails fails_fail
      · refine .behind fun st s => ?_
        split
        · exact ih
        · refine .behind fun found s => ?_
          split
          · exact .pure ⟨[st], List.reverse_cons⟩
          · split
            · exact later
            · exact .behind fun _ s => later

theorem take_tokens {t u : Token} {ts : List Token}
    (tokens : r.rest.map (·.token) = t :: u :: ts) :
    Leaves Reader.take r fun p s => p.token = t ∧ s.rest.map (·.token) = u :: ts := by
  obtain ⟨p, row, rest, rfl, row_tokens⟩ := List.map_eq_cons_iff.1 tokens
  obtain ⟨q, more, rfl, rfl, rfl⟩ := List.map_eq_cons_iff.1 row_tokens
  intro x s eq
  obtain ⟨rfl, rfl⟩ : p = x ∧ { r with rest := q :: more } = s := by
    simpa [Reader.take, rest] using eq
  exact ⟨rfl, rfl⟩

theorem ahead_token {t : Token} {ts : List Token} (tokens : r.rest.map (·.token) = t :: ts) :
    (ahead r).token = t := by
  obtain ⟨p, row, rest, rfl, -⟩ := List.map_eq_cons_iff.1 tokens
  rw [ahead_of_cons rest]

/-- Where a statement with an effect is ahead behind a brace, the block begins with it. -/
theorem block_acts {ts more : List Token} (begins : BeginsActing ts)
    (tokens : r.rest.map (·.token) = .sign "\x7b" :: (ts ++ more))
    (first : ∀ {fuel a s}, s.rest.map (·.token) = ts ++ more →
      Leaves (statement fuel a) s fun st _ => st.acts = true) :
    Leaves (block fuel a) r fun b _ => b.acts = true := by
  obtain ⟨t, ts', front, visible⟩ :
      ∃ t ts', ts ++ more = t :: ts' ∧ t ≠ .sign "\x7d" ∧ t ≠ .ended := by
    cases begins <;> exact ⟨_, _, rfl, by simp, by simp⟩
  rw [front] at tokens
  rw [front] at first
  cases fuel with
  | zero => exact .of_fails fails_tooDeep
  | succ fuel =>
    have opened : Leaves (Reader.expect (.sign "\x7b") "to start a statement block") r
        fun _ s => s.rest.map (·.token) = t :: ts' := by
      refine (take_tokens tokens).bind ?_
      rintro p s ⟨here, behind⟩
      rw [if_pos here]
      exact .pure behind
    have inside {b : Around} {s : Reading} (tokens : s.rest.map (·.token) = t :: ts') :
        Leaves (statements fuel b []) s fun ss _ => ∃ st more, ss = st :: more ∧ st.acts = true := by
      cases fuel with
      | zero => exact .of_fails fails_tooDeep
      | succ fuel =>
        have no_closing : Leaves (Reader.accept (.sign "\x7d")) s
            fun found u => found = false ∧ u = s := by
          refine Leaves.peek_bind ?_
          rw [if_neg (ahead_token tokens ▸ visible.1)]
          exact .pure ⟨rfl, rfl⟩
        rw [statements]
        refine no_closing.bind ?_
        rintro found u ⟨absent, same⟩
        rw [absent, same, if_neg (by decide)]
        refine Leaves.peek_bind ?_
        rw [if_neg (ahead_token tokens ▸ visible.2)]
        refine (first tokens).bind fun st u acts => ?_
        have counts : st.isSkip = false := by
          cases st <;> first | rfl | cases acts
        have later {v : Reading} : Leaves (statements fuel b [st]) v
            fun ss _ => ∃ st more, ss = st :: more ∧ st.acts = true := by
          refine statements_acc.mono ?_
          rintro _ _ ⟨more, rfl⟩
          exact ⟨st, more, rfl, acts⟩
        rw [counts, if_neg (by decide)]
        refine .behind fun found v => ?_
        split
        · exact .pure ⟨st, [], rfl, acts⟩
        · split
          · exact later
          · exact .behind fun _ v => later
    rw [block]
    refine opened.bind fun p s tokens => ?_
    refine Leaves.deeper.bind fun b u same => ?_
    rw [same]
    have enclosed : Leaves (Reader.enclosed (statements fuel b [])) s
        fun ss _ => ∃ st more, ss = st :: more ∧ st.acts = true := by
      intro ss v eq
      obtain ⟨vars, r₁, got, eq⟩ := ok_of_bind eq
      cases got
      obtain ⟨ss', r₂, read, eq⟩ := ok_of_bind eq
      cases eq
      exact inside tokens _ _ read
    refine enclosed.bind ?_
    rintro _ v ⟨st, more, rfl, acts⟩
    exact .pure acts

/-- What begins with an assignment, be it guarded, is read as a statement that does. -/
theorem statement_acts {ts more : List Token} (begins : BeginsActing ts)
    (tokens : r.rest.map (·.token) = ts ++ more) :
    Leaves (statement fuel a) r fun st _ => st.acts = true := by
  induction begins generalizing fuel a r with
  | @assign name t ts assigns =>
    cases fuel with
    | zero => exact .of_fails fails_tooDeep
    | succ fuel =>
      obtain ⟨⟨_, p⟩, row, rest, rfl, row_tokens⟩ := List.map_eq_cons_iff.1 tokens
      obtain ⟨q, row, rfl, rfl, -⟩ := List.map_eq_cons_iff.1 row_tokens
      rw [statement]
      refine Leaves.peek_bind ?_
      rw [ahead_of_cons rest]
      refine (expression_name rest (isInert_of_assigns assigns)).bind fun target s stepped => ?_
      refine Leaves.peek_bind ?_
      rw [ahead_of_cons stepped.2.rest]
      have assigned {op : Option String} {value : Expr} {u : Reading} :
          Leaves (assignment op target value q.pos) u fun st _ => st.acts = true := by
        refine leaves_assignment.mono ?_
        rintro _ _ ⟨rfl, -⟩
        rfl
      split
      · exact .behind fun _ _ => .behind fun value _ => assigned
      · split
        · exact .behind fun _ _ => .behind fun value _ => assigned
        · rename_i none
          rw [none] at assigns
          cases assigns
  | @attempt ts inside ih =>
    cases fuel with
    | zero => exact .of_fails fails_tooDeep
    | succ fuel =>
      rw [statement]
      refine Leaves.peek_bind ?_
      rw [ahead_token tokens]
      refine Leaves.deeper.bind fun b s same => ?_
      rw [same]
      cases fuel with
      | zero => exact .of_fails fails_tooDeep
      | succ fuel =>
        have handled {body : Stmt} (acts : body.acts = true) {name : Option String} {v : Reading}
            {p : Pos} : Leaves (do return Stmt.attempt body name (← block fuel b) p) v
              fun st _ => st.acts = true :=
          .behind fun handler _ => .pure acts
        rw [attempt]
        have taken : Leaves Reader.take r fun _ s => s.rest.map (·.token) =
            .sign "\x7b" :: (ts ++ more) :=
          (take_tokens tokens).mono fun _ _ => And.right
        refine taken.bind fun p s behind => ?_
        have body : Leaves (block fuel b) s fun body _ => body.acts = true :=
          block_acts inside behind ih
        refine body.bind fun body _ acts => .behind fun _ _ => .behind fun found _ => ?_
        split
        · refine .behind fun name _ => .behind fun _ u => ?_
          intro st v eq
          obtain ⟨vars, r₁, -, eq⟩ := ok_of_bind eq
          obtain ⟨st', r₂, read, eq⟩ := ok_of_bind eq
          cases eq
          obtain ⟨_, r₃, -, read⟩ := ok_of_bind read
          exact handled acts _ _ read
        · exact handled acts

/-! ## Two blocks with the same tokens -/

theorem block_inner : block fuel a.inner = block fuel a := by
  cases fuel with
  | zero => rfl
  | succ fuel =>
    rw [block, block]
    rfl

/-- A block takes up to its closing brace, and is read alone as it is in front of other tokens. -/
theorem block_sealed {b : Stmt} {front : List Placed} (read : block fuel a r = .ok (b, s))
    (open_ : r.EndsOpen) (rest : r.rest = front ++ s.rest) :
    (∃ p ∈ front.getLast?, p.token = .sign "\x7d") ∧ ∀ us, us ≠ [] →
      block fuel a { r with rest := front ++ us } = .ok (b, { s with rest := us }) := by
  obtain ⟨before, p, closes, -, whole, same⟩ := sealed_block fuel a r b s open_ read
  have split : front = before ++ [p] := by
    refine @List.append_cancel_right _ front s.rest _ ?_
    rw [← rest, whole, List.append_assoc, List.singleton_append]
  refine ⟨⟨p, by rw [split, List.getLast?_concat]; rfl, closes⟩, fun us filled => ?_⟩
  rw [split, List.append_assoc]
  exact same us filled

/-- Two blocks with the same tokens are the same but for their places. -/
theorem sameStmt_of_blocks {r' s' : Reading} {b b' : Stmt} {front front' : List Placed}
    (read : block fuel a r = .ok (b, s)) (read' : block fuel a r' = .ok (b', s'))
    (open_ : r.EndsOpen) (open' : r'.EndsOpen) (rest : r.rest = front ++ s.rest)
    (rest' : r'.rest = front' ++ s'.rest)
    (same : front.map (·.token) = front'.map (·.token)) (vars : r'.vars = r.vars)
    (count : r.functions.length ≤ r'.functions.length) : SameStmt b b' := by
  obtain ⟨⟨p, last, closes⟩, alone⟩ := block_sealed read open_ rest
  obtain ⟨-, inside⟩ := block_sealed read' open' rest'
  have closed : ∀ t ∈ (front.map (·.token)).getLast?, t ∉ openers := by
    rw [List.getLast?_map, last]
    rintro _ ⟨⟩
    show p.token ∉ openers
    rw [closes]
    decide
  let c : Passage := ⟨front.map (·.token), [], r'.functions.length - r.functions.length,
    fun _ _ => True, closed⟩
  have alike : Alike c ⟨[], front.map (·.token)⟩
      { r with rest := front ++ [⟨.ended, Pos.start⟩] }
      { r' with rest := front' ++ [⟨.sign ")", Pos.start⟩] } := by
    refine ⟨by simp, by simp [c, same], ⟨[], rfl, rfl⟩, fun _ h => vars ▸ h, ?_, fun _ _ _ _ => ?_⟩
    · change r'.functions.length = r.functions.length + (r'.functions.length - r.functions.length)
      omega
    · exact .inr trivial
  have stands : Stands ⟨[], front.map (·.token)⟩ [] := ⟨rfl, by simp [Lexer.Settled]⟩
  have follows := (following c 0 fuel).block (.refl (a := a.inner) rfl) stands.opens
  rw [Nat.zero_add, block_inner] at follows
  obtain ⟨b'', s'', w', read'', ⟨-, kept⟩, -⟩ := follows _ _ alike _ _ (alone _ (by simp))
  rw [inside _ (by simp)] at read''
  cases read''
  exact kept

theorem unbinding_block : Unbinding (block fuel a) := by
  cases fuel with
  | zero => exact .of_fails fails_tooDeep
  | succ fuel =>
    rw [block]
    refine .bind .expect fun p => .bind ?_ fun b => .bind ?_ fun _ => .pure
    · unfold Around.deeper
      split
      · exact .of_fails fails_tooDeep
      · exact .pure
    · intro r ss s eq
      obtain ⟨vars, r₁, got, eq⟩ := ok_of_bind eq
      cases got
      obtain ⟨ss', r₂, -, eq⟩ := ok_of_bind eq
      cases eq
      rfl

end Parser

end Stencil.Script
