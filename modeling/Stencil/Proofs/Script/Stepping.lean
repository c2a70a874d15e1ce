import Stencil.Proofs.Script.Lookahead
import Stencil.Proofs.Script.Reading

/-!
# Statements of a script one by one

A script is read statement by statement.  Behind a statement that has been read the reader goes on with
the tokens behind it, so that these may be told apart, places included, however much is in front of them.
-/

namespace Stencil.Script

open Reader

variable {α : Type} {K : List Function → Prop} {m : Reader α} {ts us : List Token} {P : α → Prop}
  {r : Reading}

/-- What stops in front of the tokens `us` leaves just these of the tokens ahead. -/
theorem Reads.exists_rest (reads : Reads K m (ts ++ us) us P) (near : Nearsighted m) (calm : Calm K r)
    (front behind : List Placed) (ahead : r.rest = front ++ behind)
    (row : front.map (·.token) = ts) (row' : behind.map (·.token) = us) :
    ∃ a s, m r = .ok (a, s) ∧ P a ∧ Calm K s ∧ s.rest = behind := by
  obtain ⟨a, s, read, holds, calm', stops⟩ := reads r calm (by rw [ahead, List.map_append, row, row'])
  refine ⟨a, s, read, holds, calm', ?_⟩
  obtain ⟨taken, whole, -⟩ := near r a s read
  have count : s.rest.length = behind.length := by
    rw [← List.length_map (f := (·.token)), stops, ← row', List.length_map]
  exact (List.append_inj' (whole.symm.trans ahead) count).2

namespace Parser

variable {fuel : Nat} {a : Around} {st : Stmt} {s : Reading} {closing : List Token}
  {front behind : List Placed} {p : Placed} {ps : List Placed}

/-- Behind a statement a script goes on behind the semicolon that ends it, if there is one. -/
theorem script_of_statement (more : (r.rest.headD ⟨.ended, Pos.start⟩).token ≠ .ended)
    (read : statement fuel a r = .ok (st, s)) (closes : Closes st closing)
    (ahead : s.rest = front ++ p :: ps) (row : front.map (·.token) = closing)
    (going : p.token ≠ .ended) (acc : List Stmt) :
    script (fuel + 1) a acc r = script fuel a (st :: acc) { s with rest := p :: ps } := by
  obtain ⟨skip, ends⟩ := closes
  rw [script, bind_of_ok (peeked r), if_neg more, bind_of_ok read, skip, if_neg (by simp),
    bind_of_ok (peeked s)]
  rcases ends with ⟨self, rfl⟩ | ⟨self, rfl⟩
  · rw [List.map_eq_nil_iff] at row
    rw [row, List.nil_append] at ahead
    rw [ahead, List.headD_cons, if_neg going, if_pos self, ← ahead]
  · obtain ⟨q, rfl, semicolon⟩ := List.map_eq_singleton_iff.1 row
    rw [List.singleton_append] at ahead
    have taken : expect (.sign ";") "to terminate this statement" s =
        .ok (q.pos, { s with rest := p :: ps }) := by
      have taken : take s = .ok (q, { s with rest := p :: ps }) := by
        rw [take, ahead]
      rw [expect, bind_of_ok taken, if_pos semicolon]
      rfl
    rw [ahead, List.headD_cons, semicolon, if_neg (by simp), self, if_neg (by simp),
      bind_of_ok taken]

/-- A script takes the statement that its first tokens are. -/
theorem exists_step {S : Stmt → Prop} (first : ReadsFirst K fuel a ts S) (calm : Calm K r)
    (ahead : r.rest = front ++ p :: ps) (row : front.map (·.token) = ts) (going : p.token ≠ .ended) :
    ∃ st s, S st ∧ Calm K s ∧ s.rest = p :: ps ∧
      ∀ acc, script (fuel + 1) a acc r = script fuel a (st :: acc) s := by
  obtain ⟨t, its, closing, rfl, -, ht, first⟩ := first
  obtain ⟨own, last, rfl, row_own, row_last⟩ := List.map_eq_append_iff.1 row
  obtain ⟨q, qs, rfl, hq, -⟩ := List.map_eq_cons_iff.1 row_own
  have read := first p.token (ps.map (·.token))
  rw [List.append_assoc] at read
  obtain ⟨st, s, read, ⟨holds, closes⟩, calm', rest⟩ :=
    read.exists_rest ((looksAhead fuel).statement a) calm (q :: qs) (last ++ p :: ps)
      (by rw [ahead, List.append_assoc]) row_own (by simp [row_last])
  refine ⟨st, { s with rest := p :: ps }, holds, ⟨calm'.vars, calm'.functions⟩, rfl, fun acc => ?_⟩
  refine script_of_statement ?_ read closes rest row_last going acc
  rw [ahead]
  exact hq ▸ ht

theorem reads_sees {t : Token} {others : List Token} (h : t ∉ others) :
    Reads K (sees others) (t :: us) (t :: us) (· = false) :=
  Reads.bind Reads.peek fun p hp => Reads.pure (by simp [hp, h])

theorem reads_result {text : String} :
    Reads K (result (fuel + 5) a) (.text text :: .sign ";" :: us) (.sign ";" :: us)
      (∃ p, · = some (.const (.string text) p)) := by
  rw [result]
  refine Reads.bind (reads_sees (by simp)) ?_
  rintro _ rfl
  refine Reads.bind (reads_sees (by simp)) ?_
  rintro _ rfl
  simp only [Bool.and_false, Bool.false_eq_true, if_false]
  refine Reads.bind (reads_text (by simp [stops])) ?_
  rintro _ ⟨p, rfl⟩
  exact Reads.pure ⟨p, rfl⟩

/-- The reader of a fault that is thrown at a place. -/
def throwing (fuel : Nat) (a : Around) (q : Pos) : Reader Stmt := do
  let _ ← take
  let e ← result fuel a
  return Stmt.throw e q

theorem nearsighted_throwing {q : Pos} : Nearsighted (throwing fuel a q) :=
  .bind .take fun _ => .bind ((looksAhead fuel).result a) fun _ => .pure

theorem reads_throwing {text : String} {q : Pos} :
    Reads K (throwing (fuel + 5) a q) (.word "throw" :: .text text :: .sign ";" :: us)
      (.sign ";" :: us) (∃ u, · = .throw (some (.const (.string text) u)) q) := by
  refine Reads.bind Reads.take fun _ _ => Reads.bind reads_result ?_
  rintro _ ⟨u, rfl⟩
  exact Reads.pure ⟨u, rfl⟩

/-- A script takes a fault that is thrown, which is located at its first token. -/
theorem exists_throw {text : String} {q : Pos} (calm : Calm K r)
    (ahead : r.rest = ⟨.word "throw", q⟩ :: (front ++ p :: ps))
    (row : front.map (·.token) = [.text text, .sign ";"]) (going : p.token ≠ .ended) :
    ∃ u s, Calm K s ∧ s.rest = p :: ps ∧ ∀ acc, script (fuel + 7) a acc r =
      script (fuel + 6) a (.throw (some (.const (.string text) u)) q :: acc) s := by
  obtain ⟨e, last, rfl, he, row⟩ := List.map_eq_cons_iff.1 row
  have step : statement (fuel + 6) a r = throwing (fuel + 5) a q r := by
    rw [statement, bind_of_ok (peeked r), ahead]
    rfl
  have reads : Reads K (throwing (fuel + 5) a q)
      ([.word "throw", .text text] ++ .sign ";" :: p.token :: ps.map (·.token))
      (.sign ";" :: p.token :: ps.map (·.token))
      (∃ u, · = .throw (some (.const (.string text) u)) q) := reads_throwing
  obtain ⟨_, s, read, ⟨u, rfl⟩, calm', rest⟩ := reads.exists_rest nearsighted_throwing calm
    [⟨.word "throw", q⟩, e] (last ++ p :: ps) (by rw [ahead]; rfl)
    (by simp [he]) (by simp [row])
  refine ⟨u, { s with rest := p :: ps }, ⟨calm'.vars, calm'.functions⟩, rfl, fun acc => ?_⟩
  refine script_of_statement ?_ (step.trans read) ⟨rfl, .inr ⟨rfl, rfl⟩⟩ rest row going acc
  rw [ahead]
  simp

end Parser

end Stencil.Script
