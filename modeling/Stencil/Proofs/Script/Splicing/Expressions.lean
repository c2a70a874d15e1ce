import Stencil.Proofs.Script.Splicing.Rows
import Stencil.Proofs.Script.Containment.Expressions
import Stencil.Proofs.Script.Reading

/-!
# Expressions in parentheses

A text that is an expression by itself is the same expression as an argument of a call: a reader that
has as much room as the one of the text alone comes up to the parenthesis behind it.
-/

namespace Stencil.Script

open Lexer (IsTerminated tokensOf depthsBehind Settled)

/-- Reads a text that is one expression, nested `limit` levels deep at most. -/
def readExpression (limit : Nat) (text : String) : Except SyntaxFault (Expr × Reading) :=
  let ts := tokens text
  let reader : Reader Expr := do
    let e ← Parser.expression (Parser.fuelFor ts) ⟨false, false, false, false, 0, limit⟩
    let q ← Reader.peek
    if q.token = .ended then return e
    else Reader.refuse ("Unexpected '" ++ q.token.spelling ++ "'") q
  reader ⟨ts, [], [], []⟩

theorem parseExpression_eq (text : String) :
    parseExpression text = (readExpression Parser.depthLimit text).map
      fun (e, r) => (e, r.functions.reverse) := by
  rfl

/-- What has been read leaves no constant in sight, which could hide a variable of the script. -/
def Reading.IsOpen (r : Reading) : Prop := ∀ v ∈ r.vars, v.2 = false

theorem Reading.IsOpen.lookup {r : Reading} (h : r.IsOpen) (name : String) :
    r.vars.lookup name ≠ some true := by
  intro found
  obtain ⟨before, behind, whole, -⟩ := List.lookup_eq_some_iff.1 found
  exact absurd (h (name, true) (by simp [whole])) (by simp)

namespace Lexer

theorem eq_nil_of_single {t u : Token} {ts : List Token} (h : [t] = ts ++ [u]) : ts = [] := by
  simpa using congrArg List.length h

/-- A row has one end. -/
theorem ended_not_mem {s : State} {cs : List Char} {ts : List Token}
    (row : (scan s cs).map (·.token) = ts ++ [.ended]) : .ended ∉ ts := by
  fun_induction scan s cs generalizing ts with
  | case2 | case3 | case4 | case6 =>
    rw [eq_nil_of_single row]
    exact List.not_mem_nil
  | case1 s cs inText t p r' read short ih =>
    have other := ofQuote_ne_ended s.pos (verbatim s.pos s.pos cs)
    rw [read] at other
    obtain ⟨us, rfl, others⟩ := exists_cons_of_alone row
    simp only [List.mem_cons, not_or]
    exact ⟨Ne.symm other, ih others⟩
  | case5 s cs outside p c r skipped t q r' read short good ih =>
    have other := (rest_token s.operand p c r).2
    rw [read] at other
    obtain ⟨us, rfl, others⟩ := exists_cons_of_alone row
    simp only [List.mem_cons, not_or]
    exact ⟨Ne.symm other, ih others⟩

end Lexer

namespace Parser

variable {limit fuel : Nat} {text : String} {e : Expr} {r : Reading} {K : List Function → Prop}
  {us : List Token} {a : Around}

theorem ok_of_readExpression (h : readExpression limit text = .ok (e, r)) :
    expression (fuelFor (tokens text)) ⟨false, false, false, false, 0, limit⟩
        ⟨tokens text, [], [], []⟩ = .ok (e, r) ∧
      (r.rest.headD ⟨.ended, Pos.start⟩).token = .ended := by
  obtain ⟨e', r', first, second⟩ := ok_of_bind h
  obtain ⟨q, r'', peeked, last⟩ := ok_of_bind second
  cases peeked
  split at last
  · rename_i ended
    cases last
    exact ⟨first, ended⟩
  · exact absurd last (fails_refuse _ _ _)

/-- Neither the end nor a parenthesis begins an expression. -/
theorem ne_ok_of_closing {p : Placed} {ps : List Placed} {s : Reading}
    (closing : p.token = .ended ∨ p.token = .sign ")") :
    expression (fuel + 3) a ⟨p :: ps, [], [], []⟩ ≠ .ok (e, s) := by
  intro read
  rw [expression] at read
  obtain ⟨left, s₁, first, -⟩ := ok_of_bind read
  have peeked : Reader.peek ⟨p :: ps, [], [], []⟩ = .ok (p, ⟨p :: ps, [], [], []⟩) := rfl
  rw [operand, bind_of_ok peeked] at first
  rcases closing with hp | hp
  · simp only [hp] at first
    exact absurd first (fails_fail _ _ _)
  · rw [hp] at first
    replace first : primary (fuel + 1) a ⟨p :: ps, [], [], []⟩ = .ok (left, s₁) := first
    rw [primary, bind_of_ok peeked, hp] at first
    exact fails_refuse _ _ _ first

theorem exists_token_of_readExpression (terminated : IsTerminated text)
    (h : readExpression limit text = .ok (e, r)) :
    ∃ t ts, tokensOf text = t :: ts ∧ t ≠ .sign ")" ∧ t ≠ .ended := by
  obtain ⟨read, -⟩ := ok_of_readExpression h
  obtain ⟨k, fuel⟩ : ∃ k, fuelFor (tokens text) = k + 3 :=
    ⟨fuelFor (tokens text) - 3, by unfold fuelFor; omega⟩
  rw [fuel] at read
  obtain ⟨p, ps, placed⟩ : ∃ p ps, tokens text = p :: ps :=
    List.exists_cons_of_ne_nil (Lexer.scan_ne_nil _ _)
  have row := terminated.alone
  rw [placed] at read row
  cases spelled : tokensOf text with
  | nil =>
    rw [spelled, List.map_cons, List.nil_append, List.cons.injEq] at row
    exact absurd read (ne_ok_of_closing (.inl row.1))
  | cons t ts =>
    rw [spelled, List.map_cons, List.cons_append, List.cons.injEq] at row
    refine ⟨t, ts, rfl, ?_, ?_⟩
    · rintro rfl
      exact absurd read (ne_ok_of_closing (.inr row.1))
    · rintro rfl
      exact absurd read (ne_ok_of_closing (.inl row.1))

/-- An expression by itself is read in front of a parenthesis too. -/
theorem exists_reading (terminated : IsTerminated text) (h : readExpression limit text = .ok (e, r))
    (around : Roomier ⟨false, false, false, false, 0, limit⟩ a)
    (enough : fuelFor (tokens text) ≤ fuel) (r' : Reading)
    (ahead : r'.rest.map (·.token) = tokensOf text ++ .sign ")" :: us)
    (calm : ∀ name, r'.vars.lookup name ≠ some true) :
    ∃ e' s, expression fuel a r' = .ok (e', s) ∧ SameExpr e e' ∧
      s.rest.map (·.token) = .sign ")" :: us ∧
      (∀ name, s.vars.lookup name = some true → r.vars.lookup name = some true) ∧
      s.functions.length = r.functions.length + r'.functions.length ∧
      (tokensOf text).foldl depthsBehind [] = [] := by
  let passage : Passage := ⟨tokensOf text, us, r'.functions.length, fun _ _ => True, terminated.last⟩
  obtain ⟨read, ended⟩ := ok_of_readExpression h
  obtain ⟨extra, rfl⟩ : ∃ extra, fuel = extra + fuelFor (tokens text) :=
    ⟨fuel - fuelFor (tokens text), by omega⟩
  have alike : Alike passage ⟨[], tokensOf text⟩ ⟨tokens text, [], [], []⟩ r' :=
    ⟨terminated.alone, ahead, ⟨[], rfl, rfl⟩, fun name found => absurd found (calm name),
      (Nat.zero_add _).symm, fun _ _ _ _ => .inr trivial⟩
  obtain ⟨e', s, w, read', ⟨stands, same⟩, behind⟩ :=
    (following passage extra _).expression around ⟨rfl, by simp [Settled]⟩ _ _ alike _ _ read
  obtain ⟨before, whole, depths⟩ := behind.read
  -- The reader of the text alone has come to its end, which is no token of it.
  have last : w.tokens = [] := by
    cases tokens : w.tokens with
    | nil => rfl
    | cons t ts =>
      have alone := behind.alone
      rw [tokens, List.cons_append] at alone
      obtain ⟨p, rest, hr, hp, -⟩ := List.map_eq_cons_iff.1 alone
      rw [hr, List.headD_cons, hp] at ended
      have member : t ∈ tokensOf text := by
        rw [show tokensOf text = before ++ w.tokens from whole, tokens]
        simp
      exact absurd (ended ▸ member) (Lexer.ended_not_mem terminated.alone)
  have inside := behind.inside
  rw [last, List.nil_append] at inside
  refine ⟨e', s, read', same, inside, behind.constants, behind.functions, ?_⟩
  rw [last, List.append_nil] at whole
  exact ((congrArg _ whole).trans depths.symm).trans stands.count

theorem reads_expression_of_terminated (terminated : IsTerminated text)
    (h : readExpression limit text = .ok (e, r)) (free : r.IsOpen)
    (around : Roomier ⟨false, false, false, false, 0, limit⟩ a)
    (enough : fuelFor (tokens text) ≤ fuel)
    (more : ∀ fs fs', K fs → fs'.length = r.functions.length + fs.length → K fs') :
    Reads K (expression fuel a) (tokensOf text ++ .sign ")" :: us) (.sign ")" :: us)
      (SameExpr e) := by
  intro r' calm ahead
  obtain ⟨e', s, read, same, rest, constants, functions, -⟩ :=
    exists_reading terminated h around enough r' ahead calm.vars
  exact ⟨e', s, read, same, ⟨fun name found => free.lookup name (constants name found),
    more _ _ calm.functions functions⟩, rest⟩

/-- The expression as the one argument of a call. -/
theorem reads_call_of_terminated {function : String} {t : Token} {ts : List Token}
    (terminated : IsTerminated text) (h : readExpression limit text = .ok (e, r))
    (free : r.IsOpen) (flags : a.inLoop = false ∧ a.inFunction = false ∧ a.inPattern = false)
    (depth : limit + a.depth < a.limit) (enough : fuelFor (tokens text) ≤ fuel) (ht : t ∈ stops)
    (more : ∀ fs fs', K fs → fs'.length = r.functions.length + fs.length → K fs') :
    Reads K (expression (fuel + 4) a)
      (.name function :: .sign "(" :: (tokensOf text ++ .sign ")" :: t :: ts)) (t :: ts)
      (∃ e' q, SameExpr e e' ∧ · = .call function [e'] q) := by
  obtain ⟨inLoop, inFunction, inPattern⟩ := flags
  have around : Roomier ⟨false, false, false, false, 0, limit⟩
      { a.inner with depth := a.depth + 1 } :=
    ⟨rfl, rfl, inLoop, inFunction, inPattern, by simp [Around.inner]; omega⟩
  have argument := @reads_expression_of_terminated _ _ _ _ _ _ (t :: ts) _ terminated h free around
    enough more
  obtain ⟨u, us, spelled, closing, ended⟩ := exists_token_of_readExpression terminated h
  rw [spelled, List.cons_append] at argument ⊢
  exact reads_call_of ht (by omega) closing ended argument

theorem foldl_depthsBehind (terminated : IsTerminated text)
    (h : readExpression limit text = .ok (e, r)) :
    (tokensOf text).foldl depthsBehind [] = [] := by
  obtain ⟨_, _, -, -, -, -, -, depths⟩ := @exists_reading _ _ _ _ _ [] _ terminated h
    (.refl rfl) (Nat.le_refl _) ⟨(tokensOf text ++ [Token.sign ")"]).map (⟨·, Pos.start⟩), [], [], []⟩
    (by simp [Function.comp_def]) (by simp)
  exact depths

end Parser

end Stencil.Script
