import Stencil.Proofs.Script.Lookahead
import Stencil.Proofs.Script.Splicing.Expressions

/-!
# What is left behind a definition

A definition ends with the brace that closes its body, and its reader looks at no token behind that.
It binds no variable for what follows.  Of the statements of a script, only an empty one or a
definition counts as none.
-/

namespace Stencil.Script

variable {α β : Type}

/-! ## Behind a closing token -/

/-- The last token is the end of the script. -/
def Reading.IsWhole (r : Reading) : Prop := ∀ p ∈ r.rest.getLast?, p.token = .ended

theorem Reading.IsWhole.of_append {r s : Reading} (whole : r.IsWhole) (front : List Placed)
    (rest : r.rest = front ++ s.rest) : s.IsWhole := by
  intro p hp
  refine whole p ?_
  rw [rest, List.getLast?_append, hp]
  rfl

/-- The last token closes no block. -/
def Reading.EndsOpen (r : Reading) : Prop := ∀ p ∈ r.rest.getLast?, p.token ≠ .sign "\x7d"

theorem Reading.IsWhole.endsOpen {r : Reading} (whole : r.IsWhole) : r.EndsOpen := by
  intro p hp closing
  have ended := whole p hp
  rw [closing] at ended
  cases ended

theorem Reading.EndsOpen.of_append {r s : Reading} (open_ : r.EndsOpen) (front : List Placed)
    (rest : r.rest = front ++ s.rest) : s.EndsOpen := by
  intro p hp
  refine open_ p ?_
  rw [rest, List.getLast?_append, hp]
  rfl

/--
What `m` reads ends with a closing brace, and it reads it in front of any other tokens; those that it
leaves, it does not look at.
-/
def Sealed (m : Reader α) : Prop :=
  ∀ r a s, r.EndsOpen → m r = .ok (a, s) → ∃ front p, p.token = .sign "\x7d" ∧ s.rest ≠ [] ∧
    r.rest = front ++ p :: s.rest ∧
    ∀ us, us ≠ [] → m { r with rest := front ++ p :: us } = .ok (a, { s with rest := us })

/-- A reader of the state alone, which looks at no token. -/
def Still (m : Reader α) : Prop :=
  ∀ r a s, m r = .ok (a, s) → s.rest = r.rest ∧
    ∀ ts, m { r with rest := ts } = .ok (a, { s with rest := ts })

namespace Still

variable {m : Reader α} {f : α → Reader β} {g : Reading → Reading}

theorem of_fails (h : Fails m) : Still m := fun r a s eq => absurd eq (h r a s)

theorem pure {a : α} : Still (Pure.pure a : Reader α) := by
  rintro r _ _ ⟨⟩
  exact ⟨rfl, fun ts => rfl⟩

theorem bind (first : Still m) (second : ∀ a, Still (f a)) : Still (m >>= f) := by
  intro r b s eq
  obtain ⟨a, r₁, eq₁, eq₂⟩ := ok_of_bind eq
  obtain ⟨rest, same⟩ := first r a r₁ eq₁
  obtain ⟨rest', same'⟩ := second a r₁ b s eq₂
  exact ⟨rest'.trans rest, fun ts => (bind_of_ok (same ts)).trans (same' ts)⟩

theorem aside (h : Nearsighted.Aside g) : Still (modify g : Reader PUnit) := by
  rintro r _ _ ⟨⟩
  refine ⟨h.rest r, fun ts => ?_⟩
  rw [← h.apart]
  rfl

theorem get_bind {f : Reading → Reader α} (h : ∀ r, Still (f r))
    (apart : ∀ r ts, f { r with rest := ts } = f r) : Still (get >>= f) := by
  intro r a s eq
  obtain ⟨rest, same⟩ := h r r a s eq
  refine ⟨rest, fun ts => ?_⟩
  have step : (get >>= f) { r with rest := ts } = f { r with rest := ts } { r with rest := ts } := rfl
  rw [step, apart]
  exact same ts

end Still

namespace Sealed

variable {m : Reader α} {f : α → Reader β} {g : Reading → Reading}

theorem of_fails (h : Fails m) : Sealed m := fun r a s _ eq => absurd eq (h r a s)

theorem bind (first : Nearsighted m) (second : ∀ a, Sealed (f a)) : Sealed (m >>= f) := by
  intro r b s open_ eq
  obtain ⟨a, r₁, eq₁, eq₂⟩ := ok_of_bind eq
  obtain ⟨front, rest, same⟩ := first r a r₁ eq₁
  obtain ⟨front', p, closes, left, rest', same'⟩ :=
    second a r₁ b s (open_.of_append front rest) eq₂
  refine ⟨front ++ front', p, closes, left, by rw [rest, rest', List.append_assoc],
    fun us hus => ?_⟩
  obtain ⟨t, more, split⟩ : ∃ t more, front' ++ [p] = t :: more :=
    List.exists_cons_of_ne_nil (by simp)
  have split_at (us : List Placed) : front' ++ p :: us = t :: (more ++ us) := by
    rw [← List.cons_append, ← split, List.append_assoc, List.singleton_append]
  rw [split_at] at rest'
  have step := same t (more ++ s.rest) (more ++ us) rest' (by simp [left]) (by simp [hus])
  rw [← split_at] at step
  rw [List.append_assoc, bind_of_ok step]
  exact same' us hus

theorem behind (first : Sealed m) (second : ∀ a, Still (f a)) : Sealed (m >>= f) := by
  intro r b s open_ eq
  obtain ⟨a, r₁, eq₁, eq₂⟩ := ok_of_bind eq
  obtain ⟨front, p, closes, left, rest, same⟩ := first r a r₁ open_ eq₁
  obtain ⟨rest', same'⟩ := second a r₁ b s eq₂
  rw [← rest'] at left rest
  exact ⟨front, p, closes, left, rest,
    fun us hus => (bind_of_ok (same us hus)).trans (same' us)⟩

theorem get_bind {f : Reading → Reader α} (h : ∀ r, Sealed (f r))
    (apart : ∀ r ts, f { r with rest := ts } = f r) : Sealed (get >>= f) := by
  intro r a s open_ eq
  obtain ⟨front, p, closes, left, rest, same⟩ := h r r a s open_ eq
  refine ⟨front, p, closes, left, rest, fun us hus => ?_⟩
  have step : (get >>= f) { r with rest := front ++ p :: us } =
      f { r with rest := front ++ p :: us } { r with rest := front ++ p :: us } := rfl
  rw [step, apart]
  exact same us hus

theorem get_set {f : Reading → PUnit → Reader α} (h : ∀ r, Sealed (f r ()))
    (hg : Nearsighted.Aside g) (apart : ∀ r ts, f { r with rest := ts } () = f r ()) :
    Sealed (get >>= fun r => set (g r) >>= f r) := by
  intro r a s open_ eq
  have open' : (g r).EndsOpen := by rwa [Reading.EndsOpen, hg.rest]
  obtain ⟨front, p, closes, left, rest, same⟩ := h r (g r) a s open' eq
  rw [hg.rest] at rest
  refine ⟨front, p, closes, left, rest, fun us hus => ?_⟩
  have step : (get >>= fun r => set (g r) >>= f r) { r with rest := front ++ p :: us } =
      f { r with rest := front ++ p :: us } () (g { r with rest := front ++ p :: us }) := rfl
  rw [step, apart, hg.apart]
  exact same us hus

theorem enclosed (h : Sealed m) : Sealed (Reader.enclosed m) := by
  refine get_bind (fun r => ?_) fun r ts => rfl
  exact behind h fun a => .bind (.aside ⟨fun _ => rfl, fun _ _ => rfl⟩) fun _ => .pure

/-- A reader stops behind a closing brace, or goes on in front of another token. -/
theorem accept_or {a : α} (other : Sealed m) :
    Sealed (do if ← Reader.accept (.sign "\x7d") then return a else m) := by
  have taken (r : Reading) (p u : Placed) (us : List Placed) (here : p.token = .sign "\x7d") :
      (do if ← Reader.accept (.sign "\x7d") then return a else m : Reader α)
        { r with rest := p :: u :: us } = .ok (a, { r with rest := u :: us }) := by
    have accepted : Reader.accept (.sign "\x7d") { r with rest := p :: u :: us } =
        .ok (true, { r with rest := u :: us }) := by
      rw [Reader.accept, bind_of_ok (peeked _), if_pos (by exact here)]
      rfl
    rw [bind_of_ok accepted]
    rfl
  have passed (r : Reading) (h : (r.rest.headD ⟨.ended, Pos.start⟩).token ≠ .sign "\x7d") :
      (do if ← Reader.accept (.sign "\x7d") then return a else m : Reader α) r = m r := by
    have accepted : Reader.accept (.sign "\x7d") r = .ok (false, r) := by
      rw [Reader.accept, bind_of_ok (peeked _), if_neg h]
      rfl
    rw [bind_of_ok accepted]
    rfl
  intro r b s open_ eq
  by_cases here : (r.rest.headD ⟨.ended, Pos.start⟩).token = .sign "\x7d"
  · -- The brace is not the last token.
    obtain ⟨p, q, qs, ahead, closes⟩ : ∃ p q qs, r.rest = p :: q :: qs ∧ p.token = .sign "\x7d" := by
      match ahead : r.rest with
      | [] => simp [ahead] at here
      | [p] =>
        have last := open_ p (by simp [ahead])
        simp [ahead] at here
        exact absurd here last
      | p :: q :: qs => exact ⟨p, q, qs, rfl, by simpa [ahead] using here⟩
    have same : r = { r with rest := p :: q :: qs } := by rw [← ahead]
    rw [same, taken r p q qs closes] at eq
    cases eq
    refine ⟨[], p, closes, by simp, ahead, fun us hus => ?_⟩
    obtain ⟨u, us, rfl⟩ := List.exists_cons_of_ne_nil hus
    exact taken r p u us closes
  · rw [passed r here] at eq
    obtain ⟨front, p, closes, left, rest, same⟩ := other r b s open_ eq
    refine ⟨front, p, closes, left, rest, fun us hus => ?_⟩
    rw [passed]
    · exact same us hus
    · rw [rest] at here
      cases front <;> exact here

end Sealed

namespace Parser

variable {fuel : Nat} {a : Around}

theorem sealed_statements (fuel : Nat) (a : Around) (acc : List Stmt) :
    Sealed (statements fuel a acc) := by
  induction fuel generalizing acc with
  | zero => exact .of_fails fails_tooDeep
  | succ fuel ih =>
    rw [statements]
    refine .accept_or (.bind .peek fun p => ?_)
    split
    · exact .of_fails fails_fail
    · refine .bind ((looksAhead fuel).statement a) fun s => ?_
      split
      · exact ih acc
      · refine .accept_or ?_
        split
        · exact ih (s :: acc)
        · exact .bind .expect fun _ => ih (s :: acc)

theorem sealed_block (fuel : Nat) (a : Around) : Sealed (block fuel a) := by
  cases fuel with
  | zero => exact .of_fails fails_tooDeep
  | succ fuel =>
    rw [block]
    refine .bind .expect fun p => .bind .deeper fun b => ?_
    exact .behind (.enclosed (sealed_statements fuel b [])) fun _ => .pure

theorem sealed_bodyBehind (fuel : Nat) (p : Pos) (name : String) (params : List String) :
    Sealed (bodyBehind fuel p name params) := by
  refine .bind .peek fun q => ?_
  dsimp only
  split
  · exact .of_fails fails_refuse.bind
  · refine .get_set (fun outer => ?_) ⟨fun _ => rfl, fun _ _ => rfl⟩ fun _ _ => rfl
    refine .behind (sealed_block _ _) fun body => ?_
    refine .bind (.aside ⟨fun _ => rfl, fun _ _ => rfl⟩) fun _ => ?_
    refine .get_bind (fun known => ?_) fun _ _ => rfl
    split
    · exact .of_fails fails_fail.bind
    · exact .bind (.aside ⟨fun _ => rfl, fun _ _ => rfl⟩) fun _ => .pure

theorem sealed_definition (fuel : Nat) (p : Pos) : Sealed (definition fuel p) := by
  cases fuel with
  | zero => exact .of_fails fails_tooDeep
  | succ fuel =>
    rw [definition]
    refine .bind .take fun _ => .bind .take fun n => ?_
    split
    · refine .bind .accept fun found => ?_
      split
      · exact sealed_bodyBehind fuel p _ []
      · refine .bind .expect fun _ => .bind .accept fun closed => ?_
        split
        · exact sealed_bodyBehind fuel p _ []
        · exact .bind ((looksAhead fuel).parameters _ _) fun _ => sealed_bodyBehind fuel p _ _
    · exact .of_fails fails_refuse

end Parser

/-! ## Readers that bind no variable -/

/-- Behind `m`, wherever it stands, the variables in sight are `vars`. -/
def Rebinding (vars : List (String × Bool)) (m : Reader α) : Prop :=
  ∀ r a s, m r = .ok (a, s) → s.vars = vars

/-- Behind `m` the variables in sight are those in front of it. -/
def Unbinding (m : Reader α) : Prop := ∀ r a s, m r = .ok (a, s) → s.vars = r.vars

namespace Rebinding

variable {vars : List (String × Bool)} {m : Reader α} {f : α → Reader β}

theorem behind (h : ∀ a, Rebinding vars (f a)) : Rebinding vars (m >>= f) := by
  intro r b s eq
  obtain ⟨a, r₁, -, eq₂⟩ := ok_of_bind eq
  exact h a r₁ b s eq₂

theorem restored {f : PUnit → Reader α} {g : Reading → Reading} (h : ∀ r, (g r).vars = vars)
    (kept : Unbinding (f ())) : Rebinding vars (modify g >>= f) :=
  fun r a s eq => (kept (g r) a s eq).trans (h r)

end Rebinding

namespace Unbinding

variable {m : Reader α} {f : α → Reader β} {t : Token}

theorem of_fails (h : Fails m) : Unbinding m := fun r a s eq => absurd eq (h r a s)

theorem pure {a : α} : Unbinding (Pure.pure a : Reader α) := by
  rintro r _ _ ⟨⟩
  rfl

theorem bind (first : Unbinding m) (second : ∀ a, Unbinding (f a)) : Unbinding (m >>= f) := by
  intro r b s eq
  obtain ⟨a, r₁, eq₁, eq₂⟩ := ok_of_bind eq
  exact (second a r₁ b s eq₂).trans (first r a r₁ eq₁)

theorem change {g : Reading → Reading} (h : ∀ r, (g r).vars = r.vars) :
    Unbinding (modify g : Reader PUnit) := by
  rintro r _ _ ⟨⟩
  exact h r

theorem get_bind {f : Reading → Reader α} (h : ∀ r, Unbinding (f r)) : Unbinding (get >>= f) :=
  fun r a s eq => h r r a s eq

/-- The variables in sight are those of a state that was noted before. -/
theorem noted {f : Reading → Reader α} (h : ∀ r, Rebinding r.vars (f r)) : Unbinding (get >>= f) :=
  fun r a s eq => h r r a s eq

theorem peek : Unbinding Reader.peek := by
  rintro r _ _ ⟨⟩
  rfl

theorem take : Unbinding Reader.take := by
  intro r a s eq
  unfold Reader.take at eq
  split at eq <;> cases eq <;> rfl

theorem accept : Unbinding (Reader.accept t) := by
  refine bind peek fun p => ?_
  split
  · exact bind take fun _ => pure
  · exact pure

theorem expect {purpose : String} : Unbinding (Reader.expect t purpose) := by
  refine bind take fun p => ?_
  split
  · exact pure
  · exact of_fails fails_refuse

theorem variableName : Unbinding Reader.variableName := by
  refine bind take fun p => ?_
  split
  · exact pure
  · exact of_fails fails_fail
  · exact of_fails fails_refuse

end Unbinding

namespace Parser

open Unbinding

theorem unbinding_parameters (fuel : Nat) (close : Token) (acc : List String) :
    Unbinding (parameters fuel close acc) := by
  induction fuel generalizing acc with
  | zero => exact of_fails fails_tooDeep
  | succ fuel ih =>
    rw [parameters]
    refine bind accept fun found => ?_
    split
    · exact pure
    · refine bind variableName fun name => ?_
      dsimp only
      split
      · exact of_fails fails_fail.bind
      · refine bind take fun q => ?_
        split
        · exact pure
        · split
          · exact ih _
          · exact of_fails fails_refuse

theorem unbinding_bodyBehind (fuel : Nat) (p : Pos) (name : String) (params : List String) :
    Unbinding (bodyBehind fuel p name params) := by
  refine bind peek fun q => ?_
  dsimp only
  split
  · exact of_fails fails_refuse.bind
  · refine noted fun outer => .behind fun _ => .behind fun body => .restored (fun _ => rfl) ?_
    refine get_bind fun known => ?_
    split
    · exact of_fails fails_fail.bind
    · exact bind (change fun _ => rfl) fun _ => pure

theorem unbinding_definition (fuel : Nat) (p : Pos) : Unbinding (definition fuel p) := by
  cases fuel with
  | zero => exact of_fails fails_tooDeep
  | succ fuel =>
    rw [definition]
    refine bind take fun _ => bind take fun n => ?_
    split
    · refine bind accept fun found => ?_
      split
      · exact unbinding_bodyBehind fuel p _ []
      · refine bind expect fun _ => bind accept fun closed => ?_
        split
        · exact unbinding_bodyBehind fuel p _ []
        · exact bind (unbinding_parameters _ _ _) fun _ => unbinding_bodyBehind fuel p _ _
    · exact of_fails fails_refuse

/-! ## What is no definition -/

/-- Every result of `m` is a statement that counts. -/
def Counts (m : Reader Stmt) : Prop := ∀ r s r', m r = .ok (s, r') → s.isSkip = false

namespace Counts

variable {m : Reader α} {f : α → Reader Stmt} {s : Stmt}

theorem of_fails {m : Reader Stmt} (h : Fails m) : Counts m := fun r a s eq => absurd eq (h r a s)

theorem pure (h : s.isSkip = false) : Counts (Pure.pure s : Reader Stmt) := by
  rintro r _ _ ⟨⟩
  exact h

theorem behind (h : ∀ a, Counts (f a)) : Counts (m >>= f) := by
  intro r b s eq
  obtain ⟨a, r₁, -, eq₂⟩ := ok_of_bind eq
  exact h a r₁ b s eq₂

end Counts

open Counts

theorem counts_block (fuel : Nat) (a : Around) : Counts (block fuel a) := by
  cases fuel with
  | zero => exact of_fails fails_tooDeep
  | succ fuel =>
    rw [block]
    exact behind fun _ => behind fun _ => behind fun _ => .pure rfl

theorem counts_branch (fuel : Nat) (a : Around) : Counts (branch fuel a) := by
  cases fuel with
  | zero => exact of_fails fails_tooDeep
  | succ fuel =>
    rw [branch]
    refine behind fun _ => behind fun _ => behind fun _ => behind fun found => ?_
    split
    · refine behind fun q => ?_
      split <;> exact behind fun _ => .pure rfl
    · exact .pure rfl

theorem counts_selection (fuel : Nat) (a : Around) : Counts (selection fuel a) := by
  cases fuel with
  | zero => exact of_fails fails_tooDeep
  | succ fuel =>
    rw [selection]
    exact behind fun _ => behind fun _ => behind fun _ => behind fun _ => .pure rfl

theorem counts_whileLoop (fuel : Nat) (a : Around) : Counts (whileLoop fuel a) := by
  cases fuel with
  | zero => exact of_fails fails_tooDeep
  | succ fuel =>
    rw [whileLoop]
    exact behind fun _ => behind fun _ => behind fun _ => .pure rfl

theorem counts_endless (fuel : Nat) (a : Around) : Counts (endless fuel a) := by
  cases fuel with
  | zero => exact of_fails fails_tooDeep
  | succ fuel =>
    rw [endless]
    exact behind fun _ => behind fun _ => .pure rfl

theorem counts_doLoop (fuel : Nat) (a : Around) : Counts (doLoop fuel a) := by
  cases fuel with
  | zero => exact of_fails fails_tooDeep
  | succ fuel =>
    rw [doLoop]
    refine behind fun _ => behind fun _ => behind fun q => ?_
    split
    · exact behind fun _ => .pure rfl
    · split
      · exact behind fun _ => .pure rfl
      · exact of_fails fails_refuse

theorem counts_enclosed {m : Reader Stmt} (h : Counts m) : Counts (Reader.enclosed m) := by
  intro r s r' eq
  obtain ⟨outer, r₁, -, eq⟩ := ok_of_bind eq
  obtain ⟨s', r₂, read, eq⟩ := ok_of_bind eq
  cases eq
  exact h r₁ _ r₂ read

theorem counts_forLoop (fuel : Nat) (a : Around) : Counts (forLoop fuel a) := by
  cases fuel with
  | zero => exact of_fails fails_tooDeep
  | succ fuel =>
    rw [forLoop]
    refine behind fun p => behind fun names => behind fun _ => behind fun _ => behind fun e => ?_
    dsimp only
    split
    · exact of_fails fails_refused.bind
    · refine counts_enclosed ?_
      split
      · exact behind fun _ => behind fun _ => behind fun _ => .pure rfl
      · exact behind fun _ => behind fun _ => .pure rfl

theorem counts_attempt (fuel : Nat) (a : Around) : Counts (attempt fuel a) := by
  cases fuel with
  | zero => exact of_fails fails_tooDeep
  | succ fuel =>
    rw [attempt]
    refine behind fun _ => behind fun _ => behind fun _ => behind fun found => ?_
    split
    · exact behind fun _ => behind fun _ => counts_enclosed (behind fun _ => behind fun _ => .pure rfl)
    · exact behind fun _ => .pure rfl

theorem counts_declaration (fuel : Nat) (a : Around) (constant : Bool) :
    Counts (declaration fuel a constant) := by
  cases fuel with
  | zero => exact of_fails fails_tooDeep
  | succ fuel =>
    rw [declaration]
    refine behind fun _ => behind fun _ => behind fun found => ?_
    dsimp only
    split <;> exact behind fun _ => behind fun _ => .pure rfl

theorem counts_assignment {op : Option String} {target value : Expr} {p : Pos} :
    Counts (assignment op target value p) := by
  refine behind fun vars => ?_
  dsimp only
  split
  · split
    · exact of_fails fails_fail
    · exact .pure rfl
  · split
    · split
      · exact .pure rfl
      · exact .pure rfl
      · exact of_fails fails_fail
    · exact of_fails fails_fail
  · exact .pure rfl
  · exact of_fails fails_fail
  · exact of_fails fails_fail

/-- The tokens in front of which a statement may be nothing that counts. -/
def skips : List Token := [.ended, .sign ";", .word "fn", .word "private"]

theorem skips_cases {t : Token} (among : t ∈ skips) (more : t ≠ .ended) :
    t = .sign ";" ∨ t = .word "fn" ∨ t = .word "private" := by
  simpa [skips, more] using among

theorem mem_skips {fuel : Nat} {a : Around} {r r' : Reading} {s : Stmt}
    (read : statement (fuel + 1) a r = .ok (s, r')) (skip : s.isSkip = true) :
    (r.rest.headD ⟨.ended, Pos.start⟩).token ∈ skips := by
  rw [statement, bind_of_ok (peeked r)] at read
  have refuted {m : Reader Stmt} (read : m r = .ok (s, r')) (counts : Counts m) : False :=
    Bool.noConfusion ((counts r s r' read).symm.trans skip)
  refine Decidable.byContradiction fun other => refuted read ?_
  split
  case h_1 token => exact (other (by rw [token]; decide)).elim
  case h_2 token => exact (other (by rw [token]; decide)).elim
  case h_3 => exact behind fun _ => counts_block _ _
  case h_4 token => exact (other (by rw [token]; decide)).elim
  case h_5 token => exact (other (by rw [token]; decide)).elim
  case h_6 => exact behind fun _ => counts_branch _ _
  case h_7 => exact behind fun _ => counts_selection _ _
  case h_8 => exact behind fun _ => counts_whileLoop _ _
  case h_9 => exact behind fun _ => counts_endless _ _
  case h_10 => exact behind fun _ => counts_doLoop _ _
  case h_11 => exact behind fun _ => counts_forLoop _ _
  case h_12 =>
    split
    · exact behind fun _ => .pure rfl
    · exact of_fails fails_fail
  case h_13 =>
    split
    · refine behind fun _ => behind fun found => ?_
      split
      · exact .pure rfl
      · exact behind fun _ => .pure rfl
    · exact of_fails fails_fail
  case h_14 => exact behind fun _ => behind fun _ => .pure rfl
  case h_15 => exact behind fun _ => behind fun _ => .pure rfl
  case h_16 => exact behind fun _ => counts_attempt _ _
  case h_17 => exact counts_declaration _ _ _
  case h_18 => exact counts_declaration _ _ _
  case h_19 =>
    refine behind fun _ => behind fun _ => behind fun _ => behind fun found => ?_
    split
    · exact behind fun _ => .pure rfl
    · exact .pure rfl
  case h_20 =>
    split
    · refine behind fun _ => behind fun _ => behind fun found => ?_
      dsimp only
      split
      · exact behind fun _ => behind fun _ => .pure rfl
      · exact behind fun _ => .pure rfl
    · exact of_fails fails_fail
  case h_21 =>
    refine behind fun target => behind fun q => ?_
    split
    · exact behind fun _ => behind fun _ => counts_assignment
    · split
      · exact behind fun _ => behind fun _ => counts_assignment
      · exact .pure rfl

theorem ne_nil_of_script {fuel : Nat} {a : Around} {acc ss : List Stmt} {r s : Reading}
    (filled : acc ≠ []) (read : script fuel a acc r = .ok (ss, s)) : ss ≠ [] := by
  induction fuel generalizing acc r with
  | zero => exact absurd read (fails_tooDeep r ss s)
  | succ fuel ih =>
    rw [script] at read
    obtain ⟨p, r₁, -, read⟩ := ok_of_bind read
    split at read
    · cases read
      simpa using filled
    · obtain ⟨st, r₂, -, read⟩ := ok_of_bind read
      split at read
      · exact ih filled read
      · obtain ⟨q, r₃, -, read⟩ := ok_of_bind read
        split at read
        · cases read
          simp
        · split at read
          · exact ih (by simp) read
          · obtain ⟨_, r₄, -, read⟩ := ok_of_bind read
            exact ih (by simp) read

/-- A script without statements is at its end, or begins with a statement that does not count. -/
theorem skip_of_script {fuel : Nat} {a : Around} {r s : Reading}
    (read : script (fuel + 1) a [] r = .ok ([], s)) :
    (r.rest.headD ⟨.ended, Pos.start⟩).token = .ended ∧ s = r ∨
      (r.rest.headD ⟨.ended, Pos.start⟩).token ≠ .ended ∧
        ∃ st r₁, statement fuel a r = .ok (st, r₁) ∧ st.isSkip = true ∧
          script fuel a [] r₁ = .ok ([], s) := by
  rw [script, bind_of_ok (peeked r)] at read
  split at read
  · rename_i ended
    cases read
    exact .inl ⟨ended, rfl⟩
  · rename_i more
    obtain ⟨st, r₁, first, read⟩ := ok_of_bind read
    refine .inr ⟨more, st, r₁, first, ?_⟩
    split at read
    · rename_i skip
      exact ⟨skip, read⟩
    · obtain ⟨q, r₂, -, read⟩ := ok_of_bind read
      split at read
      · cases read
      · split at read
        · exact absurd rfl (ne_nil_of_script (by simp) read)
        · obtain ⟨_, r₃, -, read⟩ := ok_of_bind read
          exact absurd rfl (ne_nil_of_script (by simp) read)

end Parser

end Stencil.Script
