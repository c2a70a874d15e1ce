import Stencil.Proofs.Script.Footprints

/-!
# Definitions in front of a script

A text that is a row of definitions by itself is the same row in front of any other tokens: behind the
brace that closes the last of them nothing is looked at.
-/

namespace Stencil.Script

variable {α β : Type}

/-! ## Definitions inside a script -/

open Lexer (isBrace)

namespace Follows

variable {c : Passage} {m m' : Reader α} {f f' : PUnit → Reader β} {w w' : Ahead}
  {P : Ahead → α → α → Prop} {Q : Ahead → β → β → Prop} {g g' : Reading → Reading} {t u : Token}
  {ts : List Token}

/-- At the end of the text a reader that needs a token gives nothing. -/
theorem of_ended (h : w.tokens = [])
    (fails : ∀ r p, r.rest = [p] → p.token = .ended → ∀ a s, m r ≠ .ok (a, s)) :
    Follows c m m' w P := by
  intro r r' alike a s eq
  have alone := alike.alone
  rw [h, List.nil_append] at alone
  obtain ⟨p, hr, hp⟩ := List.map_eq_singleton_iff.1 alone
  exact absurd eq (fails r p hr hp a s)

theorem accept_cons (h : w.tokens = u :: ts) :
    Follows c (Reader.accept t) (Reader.accept t) w (fun w' a b => a = b ∧
      (b = true ∧ Took w t w' ∨ b = false ∧ w' = w)) := by
  refine bind (peek_cons h) ?_
  rintro _ p p' ⟨rfl, hp, hp'⟩
  by_cases same : u = t
  · subst same
    simp only [hp, hp', if_true]
    exact bind (take_cons h) fun _ _ _ ⟨took, _, _⟩ => pure ⟨rfl, .inl ⟨rfl, took⟩⟩
  · simp only [hp, hp', same, if_false]
    exact pure ⟨rfl, .inr ⟨rfl, rfl⟩⟩

theorem modify_bind (h : ∀ r r', Alike c w r r' → Alike c w' (g r) (g' r'))
    (behind : Follows c (f ()) (f' ()) w' Q) :
    Follows c (modify g >>= f) (modify g' >>= f') w Q :=
  fun r r' alike a s eq => behind (g r) (g' r') (h r r' alike) a s eq

end Follows

/-- Behind its body a function is defined in the text and inside. -/
theorem Alike.defining {c : Passage} {w : Ahead} {r r' : Reading} (h : Alike c w r r')
    (name : String) (params : List String) (body body' : Stmt) :
    Alike c w { r with functions := ⟨name, params, body⟩ :: r.functions }
      { r' with functions := ⟨name, params, body'⟩ :: r'.functions } := by
  refine ⟨h.alone, h.inside, h.read, h.constants, ?_, ?_⟩
  · have count := h.functions
    simp only [List.length_cons]
    omega
  · rintro name count written ⟨g, member, rfl, rfl⟩
    rcases List.mem_cons.1 member with rfl | member
    · exact .inl ⟨_, List.mem_cons_self, rfl, rfl⟩
    · rcases h.defined _ _ written ⟨g, member, rfl, rfl⟩ with ⟨g', member', same⟩ | known
      · exact .inl ⟨g', List.mem_cons_of_mem _ member', same⟩
      · exact .inr known

namespace Parser

variable {c : Passage} {extra fuel : Nat} {w : Ahead} {depths : List Nat} {p p' : Pos}

theorem ne_ok_of_parameters {close : Token} {acc : List String} {r : Reading} {q : Placed}
    (hc : close ≠ .ended) (hr : r.rest = [q]) (hq : q.token = .ended) (names : List String)
    (s : Reading) : parameters fuel close acc r ≠ .ok (names, s) := by
  have peeked : Reader.peek r = .ok (q, r) := by
    rw [Reader.peek, hr]
    rfl
  have taken : Reader.take r = .ok (q, r) := by
    simp [Reader.take, hr]
  have refused : Reader.accept close r = .ok (false, r) := by
    rw [Reader.accept, bind_of_ok peeked, if_neg (by rw [hq]; exact hc.symm)]
    rfl
  cases fuel with
  | zero => exact fails_tooDeep r names s
  | succ fuel =>
    rw [parameters, bind_of_ok refused]
    intro eq
    obtain ⟨found, r', named, -⟩ := ok_of_bind eq
    rw [Reader.variableName, bind_of_ok taken, hq] at named
    exact fails_refuse _ _ _ named

theorem follows_parameters_of {close : Token} (hc : close ≠ .ended) (plain : isBrace close = false)
    (acc : List String) (here : Stands w depths) :
    Follows c (parameters fuel close acc) (parameters (extra + fuel) close acc) w
      (Kept depths Eq) := by
  induction fuel generalizing acc w with
  | zero => exact .of_fails fails_tooDeep
  | succ fuel ih =>
    cases hw : w.tokens with
    | nil => exact .of_ended hw fun r q hr hq => ne_ok_of_parameters hc hr hq
    | cons u us =>
      rw [← Nat.add_assoc, parameters, parameters]
      refine Follows.bind (Follows.accept_cons hw) ?_
      rintro w₁ _ found ⟨rfl, ⟨rfl, took⟩ | ⟨rfl, rfl⟩⟩
      · exact Follows.pure ⟨here.took took plain, rfl⟩
      · refine Follows.bind Follows.variableName ?_
        rintro w₂ ⟨name, q⟩ ⟨_, q'⟩ ⟨rfl, n, took⟩
        have here := here.took took rfl
        dsimp only
        by_cases twice : acc.contains name = true
        · simp only [twice, if_true]
          exact .of_fails fails_fail.bind
        · simp only [twice]
          refine Follows.take_bind (fun t w₃ q q' took hq hq' => ?_) fun q hq => ?_
          · simp only [hq, hq']
            split
            · rename_i closing
              exact Follows.pure ⟨here.took took (closing ▸ plain), rfl⟩
            · split
              · rename_i comma
                exact ih (name :: acc) (here.took took (by rw [comma]; rfl))
              · exact .of_fails fails_refuse
          · simp only [hq, if_neg hc.symm, reduceCtorEq, if_false]
            exact fails_refuse

/-- A name of a function is new inside if it is new in the text, and known nowhere before it. -/
theorem any_defined_eq_false {r r' : Reading} {name : String} {count : Nat} (alike : Alike c w r r')
    (written : isClosureName name = false) (unknown : ¬c.known name count)
    (new : (r.functions.any fun f => f.name = name && f.params.length = count) = false) :
    (r'.functions.any fun f => f.name = name && f.params.length = count) = false := by
  rw [← Bool.not_eq_true] at new ⊢
  intro twice
  obtain ⟨f, member, same⟩ := List.any_eq_true.1 twice
  rw [Bool.and_eq_true, decide_eq_true_eq, decide_eq_true_eq] at same
  rcases alike.defined name count written ⟨f, member, same⟩ with ⟨g, member', same'⟩ | known
  · refine new (List.any_eq_true.2 ⟨g, member', ?_⟩)
    rw [Bool.and_eq_true, decide_eq_true_eq, decide_eq_true_eq]
    exact same'
  · exact unknown known

theorem follows_bodyBehind {name : String} (params : List String) (here : Stands w depths)
    (written : isClosureName name = false) (unknown : ∀ count, ¬c.known name count) :
    Follows c (bodyBehind fuel p name params) (bodyBehind (extra + fuel) p' name params) w
      (Kept depths SameStmt) := by
  unfold bodyBehind
  cases hw : w.tokens with
  | nil =>
    refine Follows.bind (Follows.peek_nil hw) ?_
    rintro _ q q' ⟨rfl, hq, -⟩
    simp only [hq, ne_eq, reduceCtorEq, not_false_eq_true, if_true]
    exact .of_fails fails_refuse.bind
  | cons u us =>
    refine Follows.bind (Follows.peek_cons hw) ?_
    rintro w q q' ⟨rfl, hq, hq'⟩
    simp only [hq, hq']
    split
    · exact .of_fails fails_refuse.bind
    · refine Follows.get_bind fun outer outer' outside => ?_
      have entered : Alike c w { outer with vars := params.reverse.map (·, false), free := [] }
          { outer' with vars := params.reverse.map (·, false), free := [] } :=
        ⟨outside.alone, outside.inside, outside.read, fun _ h => h, outside.functions,
          outside.defined⟩
      refine Follows.set_bind entered ?_
      refine Follows.bind ((following c extra fuel).block (.refl rfl) here.opens) ?_
      rintro w₁ body body' ⟨here, -⟩
      have restored (r r' : Reading) (within : Alike c w₁ r r') :
          Alike c w₁ { r with vars := outer.vars, free := outer.free }
            { r' with vars := outer'.vars, free := outer'.free } :=
        ⟨within.alone, within.inside, within.read, outside.constants, within.functions,
          within.defined⟩
      refine Follows.modify_bind restored ?_
      refine Follows.get_bind fun r r' within => ?_
      by_cases new : (r.functions.any fun f => f.name = name && f.params.length = params.length) = true
      · rw [if_pos new]
        exact .of_fails fails_fail.bind
      · have new' := any_defined_eq_false within written (unknown _) (Bool.not_eq_true _ ▸ new)
        rw [if_neg new, new', if_neg (by decide)]
        have defined (r r' : Reading) (within : Alike c w₁ r r') :=
          within.defining name params body body'
        exact Follows.modify_bind defined (Follows.pure ⟨here, rfl⟩)

theorem follows_definition {t : Token} {ts : List Token} (here : Stands w depths)
    (begins : w.tokens = t :: ts) (plain : isBrace t = false)
    (written : ∀ name, .name name ∈ w.tokens → isClosureName name = false)
    (unknown : ∀ name count, ¬c.known name count) :
    Follows c (definition (fuel + 1) p) (definition (extra + fuel + 1) p') w
      (Kept depths SameStmt) := by
  rw [definition, definition]
  refine Follows.bind (Follows.take_cons begins) ?_
  rintro w₁ _ _ ⟨took, -, -⟩
  have here := here.took took plain
  refine Follows.take_bind (fun u w₂ n n' took' hn hn' => ?_) fun n hn => ?_
  · rw [hn, hn']
    cases u with
    | name name =>
      have here := here.took took' rfl
      have known := unknown name
      replace written : isClosureName name = false := written name (by
        rw [took.tokens, took'.tokens]
        simp)
      dsimp only
      refine Follows.bind (Follows.accept (by simp) (by simp)) ?_
      rintro w₃ _ found ⟨rfl, ⟨rfl, took⟩ | ⟨rfl, rfl, -⟩⟩
      · exact follows_bodyBehind [] (here.took took rfl) written known
      · refine Follows.bind (Follows.expect (by simp)) ?_
        rintro w₄ _ _ took
        have here := here.took took rfl
        cases hw : w₄.tokens with
        | nil =>
          refine .of_ended hw fun r q hr hq a s eq => ?_
          have peeked : Reader.peek r = .ok (q, r) := by
            rw [Reader.peek, hr]
            rfl
          have refused : Reader.accept (.sign ")") r = .ok (false, r) := by
            rw [Reader.accept, bind_of_ok peeked, if_neg (by rw [hq]; simp)]
            rfl
          rw [bind_of_ok refused] at eq
          obtain ⟨names, r', read, -⟩ := ok_of_bind eq
          exact ne_ok_of_parameters (by simp) hr hq names r' read
        | cons v vs =>
          refine Follows.bind (Follows.accept_cons hw) ?_
          rintro w₅ _ found ⟨rfl, ⟨rfl, took⟩ | ⟨rfl, rfl⟩⟩
          · exact follows_bodyBehind [] (here.took took rfl) written known
          · refine Follows.bind (follows_parameters_of (by simp) rfl [] here) ?_
            rintro w₆ params _ ⟨here, rfl⟩
            exact follows_bodyBehind params here written known
    | _ => exact .of_fails fails_refuse
  · rw [hn]
    exact fails_refuse

end Parser

/-! ## Definitions one by one -/

/-- The end of a text that stands in parentheses. -/
def closing : List Placed := [⟨.sign ")", Pos.start⟩, ⟨.ended, Pos.start⟩]

/--
A reader of the text alone, and one of a script in which it stands in front of `behind`: in front of a
parenthesis, the second would be one of the text inside a script.
-/
structure Beside (c : Passage) (behind : List Placed) (w : Ahead) (r r' : Reading) : Prop where
  ahead : ∃ front, front.map (·.token) = w.tokens ∧ r'.rest = front ++ behind ∧
    Alike c w r { r' with rest := front ++ closing }
  stands : Stands w []

namespace Beside

variable {c : Passage} {behind : List Placed} {w : Ahead} {r r₁ r' : Reading} {t : Token}
  {ts : List Token} {p : Placed}

theorem take_rest {r : Reading} {p : Placed} {ps : List Placed} (h : ps ≠ []) :
    Reader.take { r with rest := p :: ps } = .ok (p, { r with rest := ps }) := by
  obtain ⟨q, qs, rfl⟩ := List.exists_cons_of_ne_nil h
  rfl

theorem head (h : Beside c behind w r r') (ahead : w.tokens = t :: ts) :
    (r.rest.headD ⟨.ended, Pos.start⟩).token = t ∧
      (r'.rest.headD ⟨.ended, Pos.start⟩).token = t := by
  obtain ⟨front, tokens, whole, alike⟩ := h.ahead
  have alone := alike.alone
  rw [ahead] at alone tokens
  obtain ⟨p, rest, hr, hp, -⟩ := List.map_eq_cons_iff.1 alone
  obtain ⟨p', rest', rfl, hp', -⟩ := List.map_eq_cons_iff.1 tokens
  rw [hr, whole]
  exact ⟨hp, hp'⟩

theorem ended (h : Beside c behind w r r') (none : w.tokens = []) :
    (r.rest.headD ⟨.ended, Pos.start⟩).token = .ended := by
  obtain ⟨front, -, -, alike⟩ := h.ahead
  have alone := alike.alone
  rw [none, List.nil_append] at alone
  obtain ⟨e, rest, ended⟩ := List.map_eq_singleton_iff.1 alone
  rw [rest, List.headD_cons, ended]

theorem subset (h : Beside c behind w r r') : w.tokens ⊆ c.tokens := by
  obtain ⟨front, -, -, alike⟩ := h.ahead
  obtain ⟨before, whole, -⟩ := alike.read
  rw [whole]
  exact List.subset_append_right _ _

theorem take (h : Beside c behind w r r') (filled : behind ≠ []) (ahead : w.tokens = t :: ts)
    (plain : isBrace t = false) (taken : Reader.take r = .ok (p, r₁)) :
    ∃ p' r₁' w₁, Reader.take r' = .ok (p', r₁') ∧ Took w t w₁ ∧ Beside c behind w₁ r₁ r₁' ∧
      r₁'.vars = r'.vars := by
  obtain ⟨front, tokens, whole, alike⟩ := h.ahead
  rw [ahead] at tokens
  obtain ⟨p', front', rfl, -, tokens'⟩ := List.map_eq_cons_iff.1 tokens
  obtain ⟨q, s', w₁, taken', ⟨took, -, -⟩, alike'⟩ :=
    Follows.take_cons ahead r _ alike p r₁ taken
  rw [List.cons_append, take_rest (by simp [closing])] at taken'
  cases taken'
  have same : r' = { r' with rest := p' :: (front' ++ behind) } := by rw [← List.cons_append, ← whole]
  refine ⟨p', { r' with rest := front' ++ behind }, w₁, ?_, took, ⟨⟨front', ?_, rfl, alike'⟩, ?_⟩, rfl⟩
  · rw [same, take_rest (by simp [filled])]
  · rw [tokens', ← List.cons.inj (ahead.symm.trans took.tokens) |>.2]
  · exact h.stands.took took plain

end Beside

namespace Parser

variable {c : Passage} {behind : List Placed} {w : Ahead} {r r₁ r' : Reading} {t : Token}
  {ts : List Token} {extra fuel : Nat} {p p' : Pos}

theorem isWhole_closing (r : Reading) (front : List Placed) :
    Reading.IsWhole { r with rest := front ++ closing } := by
  intro q hq
  simp only [closing, List.getLast?_append, List.getLast?_cons_cons, List.getLast?_singleton,
    Option.some_or, Option.mem_def, Option.some.injEq] at hq
  rw [← hq]

theorem exists_front {front back taken rest : List Placed} (h : front ++ back = taken ++ rest)
    (long : back.length ≤ rest.length) : ∃ more, front = taken ++ more ∧ rest = more ++ back := by
  rcases List.append_eq_append_iff.1 h with ⟨more, rfl, rfl⟩ | ⟨more, rfl, rfl⟩
  · have none : more = [] := by
      rw [List.length_append] at long
      exact List.length_eq_zero_iff.1 (by omega)
    exact ⟨[], by simp [none], by simp [none]⟩
  · exact ⟨more, rfl, rfl⟩

/-- A definition of the text is the same definition in front of the script. -/
theorem definition_beside (extra : Nat) (p' : Pos) (h : Beside c behind w r r')
    (filled : behind ≠ []) (ends : c.behind = [.ended]) (ahead : w.tokens = t :: ts)
    (plain : isBrace t = false)
    (written : ∀ name, .name name ∈ w.tokens → isClosureName name = false)
    (unknown : ∀ name count, ¬c.known name count) {s : Stmt}
    (read : definition fuel p r = .ok (s, r₁)) :
    ∃ s' r₁' w₁, definition (extra + fuel) p' r' = .ok (s', r₁') ∧ SameStmt s s' ∧
      Beside c behind w₁ r₁ r₁' ∧ r₁'.vars = r'.vars := by
  cases fuel with
  | zero => exact absurd read (fails_tooDeep r s r₁)
  | succ fuel =>
    obtain ⟨front, tokens, whole, alike⟩ := h.ahead
    obtain ⟨s', r₂, w₁, read', ⟨stands, same⟩, alike'⟩ :=
      @follows_definition c extra fuel w [] p p' t ts h.stands ahead plain written unknown r _ alike
        s r₁ read
    obtain ⟨taken, q, -, -, rest, moved⟩ :=
      sealed_definition _ _ _ _ _ (isWhole_closing r' front).endsOpen read'
    rw [List.append_cons] at rest
    have inside := alike'.inside
    rw [ends] at inside
    -- What is left in front of the parenthesis is left in front of the script.
    obtain ⟨left, rfl, left_rest⟩ := exists_front rest (by
      have count := congrArg List.length inside
      simp only [List.length_map, List.length_append, List.length_cons] at count
      simp only [closing, List.length_cons, List.length_nil]
      omega)
    have here : { r₂ with rest := left ++ closing } = r₂ := by rw [← left_rest]
    refine ⟨s', { r₂ with rest := left ++ behind }, w₁, ?_, same, ⟨⟨left, ?_, rfl, ?_⟩, stands⟩, ?_⟩
    · have step := moved (left ++ behind) (by simp [filled])
      have same : { r' with rest := taken ++ q :: (left ++ behind) } = r' := by
        rw [List.append_cons, ← List.append_assoc, ← whole]
      rw [← same]
      exact step
    · rw [left_rest, List.map_append] at inside
      exact List.append_cancel_right inside
    · exact here.symm ▸ alike'
    · exact (unbinding_definition _ _ _ _ _ read' :)

/-- A statement of the text that does not count is none in front of the script. -/
theorem statement_beside {a : Around} (extra : Nat) (h : Beside c behind w r r')
    (filled : behind ≠ []) (ends : c.behind = [.ended]) (ahead : w.tokens = t :: ts)
    (more : t ≠ .ended) (top : a.top = true)
    (written : ∀ name, .name name ∈ w.tokens → isClosureName name = false)
    (unknown : ∀ name count, ¬c.known name count) {s : Stmt} (skip : s.isSkip = true)
    (read : statement fuel a r = .ok (s, r₁)) :
    ∃ s' r₁' w₁, statement (extra + fuel) a r' = .ok (s', r₁') ∧ s'.isSkip = true ∧
      Beside c behind w₁ r₁ r₁' ∧ r₁'.vars = r'.vars := by
  cases fuel with
  | zero => exact absurd read (fails_tooDeep r s r₁)
  | succ fuel =>
    obtain ⟨head, head'⟩ := h.head ahead
    have among := mem_skips read skip
    rw [head] at among
    rw [statement, bind_of_ok (peeked r)] at read
    rw [← Nat.add_assoc, statement, bind_of_ok (peeked r')]
    rw [head] at read
    rw [head']
    rcases skips_cases among more with rfl | rfl | rfl
    · obtain ⟨q, r₂, taken, read⟩ := ok_of_bind read
      cases read
      obtain ⟨q', r₁', w₁, taken', -, beside, vars⟩ := h.take filled ahead rfl taken
      exact ⟨_, r₁', w₁, bind_of_ok taken', rfl, beside, vars⟩
    · simp only [top, if_true] at read ⊢
      obtain ⟨s', r₁', w₁, read', same, beside, vars⟩ :=
        definition_beside extra _ h filled ends ahead rfl written unknown read
      exact ⟨s', r₁', w₁, read', same.isSkip ▸ skip, beside, vars⟩
    · simp only [top, if_true] at read ⊢
      obtain ⟨q, r₂, taken, read⟩ := ok_of_bind read
      obtain ⟨q', r₂', w₂, taken', took, beside, vars⟩ := h.take filled ahead rfl taken
      rw [bind_of_ok taken']
      rw [bind_of_ok (peeked r₂)] at read
      rw [bind_of_ok (peeked r₂')]
      cases hw : w₂.tokens with
      | nil =>
        rw [if_neg (by rw [beside.ended hw]; simp)] at read
        exact absurd read (fails_refuse _ _ _)
      | cons u us =>
        obtain ⟨next, next'⟩ := beside.head hw
        rw [next] at read
        rw [next']
        by_cases function : u = .word "fn"
        · subst function
          simp only [if_true] at read ⊢
          have later : w₂.tokens ⊆ w.tokens := by
            rw [took.tokens]
            exact List.subset_cons_self _ _
          obtain ⟨s', r₁', w₁, read', same, beside, vars'⟩ :=
            definition_beside extra _ beside filled ends hw rfl
              (fun name mem => written name (later mem)) unknown read
          exact ⟨s', r₁', w₁, read', same.isSkip ▸ skip, beside, vars'.trans vars⟩
        · rw [if_neg function] at read
          exact absurd read (fails_refuse _ _ _)

/-- A row of definitions is passed over in front of the script. -/
theorem script_beside {a : Around} (extra : Nat) (h : Beside c behind w r r')
    (filled : behind ≠ []) (ends : c.behind = [.ended]) (top : a.top = true)
    (more : .ended ∉ c.tokens) (written : ∀ name, .name name ∈ c.tokens → isClosureName name = false)
    (unknown : ∀ name count, ¬c.known name count) {s : Reading}
    (read : script fuel a [] r = .ok ([], s)) :
    ∃ fuel' s' w', extra ≤ fuel' ∧ (∀ acc, script (extra + fuel) a acc r' = script fuel' a acc s') ∧
      w'.tokens = [] ∧ Beside c behind w' s s' ∧ s'.vars = r'.vars := by
  induction fuel generalizing w r r' with
  | zero => exact absurd read (fails_tooDeep r [] s)
  | succ fuel ih =>
    cases hw : w.tokens with
    | nil =>
      have here : s = r := by
        rcases skip_of_script read with ⟨-, same⟩ | ⟨more, -⟩
        · exact same
        · exact absurd (h.ended hw) more
      exact ⟨_, r', w, Nat.le_add_right _ _, fun _ => rfl, hw, here ▸ h, rfl⟩
    | cons t ts =>
      obtain ⟨head, head'⟩ := h.head hw
      have inside : t ∈ c.tokens := h.subset (by simp [hw])
      have going : t ≠ .ended := fun eq => more (eq ▸ inside)
      rcases skip_of_script read with ⟨ended, -⟩ | ⟨-, st, r₁, first, skip, read⟩
      · exact absurd (head.symm.trans ended) going
      · obtain ⟨st', r₁', w₁, first', skip', beside, vars⟩ :=
          statement_beside extra h filled ends hw going top (fun name mem => written name (h.subset mem))
            unknown skip first
        obtain ⟨fuel', s', w', enough, same, none, beside', vars'⟩ := ih beside read
        refine ⟨fuel', s', w', enough, fun acc => ?_, none, beside', vars'.trans vars⟩
        rw [← Nat.add_assoc, script, bind_of_ok (peeked r'), if_neg (by rw [head']; exact going),
          bind_of_ok first', if_pos skip', same]

/-! ## The text of the definitions -/

end Parser

namespace Lexer

/-- Whether a token is no name, or a name without signs in it. -/
def IsWritten (t : Token) : Prop := ∀ name, t = .name name → name.toList.all isNamePart = true

theorem isWritten_of_ne {t : Token} (h : ∀ name, t ≠ .name name) : IsWritten t :=
  fun name eq => absurd eq (h name)

theorem isWritten_tokenOfWord {w : String} (h : w.toList.all isNamePart = true) :
    IsWritten (tokenOfWord w) := by
  unfold tokenOfWord
  split
  · exact isWritten_of_ne (by simp)
  split
  · exact isWritten_of_ne (by simp)
  split
  · exact isWritten_of_ne (by simp)
  split
  · rintro _ ⟨⟩
    exact h
  · exact isWritten_of_ne (by simp)

theorem isWritten_ofQuote (start : Pos) (quote : Quote) :
    IsWritten (ofQuote start quote).1.token := by
  cases quote <;> exact isWritten_of_ne (by simp [ofQuote])

theorem isWritten_number (negative : Bool) (cs : List Char) : IsWritten (number negative cs).1 := by
  have decimal_written : IsWritten (decimal negative cs).1 := by
    simp only [decimal]
    split
    · exact isWritten_of_ne (by simp)
    · split <;> exact isWritten_of_ne (by simp)
  unfold number
  split
  · split
    · simp only
      split <;> exact isWritten_of_ne (by simp)
    · exact decimal_written
  · exact decimal_written

theorem isWritten_token (operand : Bool) (p : Pos) (c : Char) (r : List Char) :
    IsWritten (token operand p c r).1.token := by
  unfold token
  dsimp only
  split
  · exact isWritten_ofQuote _ _
  split
  · exact isWritten_ofQuote _ _
  split
  · split
    · exact isWritten_of_ne (by simp)
    · split <;> exact isWritten_of_ne (by simp)
  split
  · refine isWritten_tokenOfWord ?_
    rw [String.toList_ofList]
    exact List.all_takeWhile
  split
  · exact isWritten_number _ _
  split
  · exact isWritten_number _ _
  split
  · exact isWritten_ofQuote _ _
  split
  · exact isWritten_of_ne (by simp)
  split
  · split <;> exact isWritten_of_ne (by simp)
  · exact isWritten_of_ne (by simp)

theorem isWritten_of_mem_scan {s : State} {cs : List Char} :
    ∀ t ∈ scan s cs, IsWritten t.token := by
  fun_induction scan s cs with
  | case1 s cs inText t p r read short ih =>
    have first := isWritten_ofQuote s.pos (verbatim s.pos s.pos cs)
    rw [read] at first
    exact List.forall_mem_cons.2 ⟨first, ih⟩
  | case2 s cs inText t p r read =>
    have first := isWritten_ofQuote s.pos (verbatim s.pos s.pos cs)
    rw [read] at first
    exact List.forall_mem_cons.2 ⟨first, by simp⟩
  | case3 => exact List.forall_mem_cons.2 ⟨isWritten_of_ne (by simp), by simp⟩
  | case4 s cs outside p c r skipped t q r' read =>
    have first := isWritten_token s.operand p c r
    rw [read] at first
    exact List.forall_mem_cons.2 ⟨first, by simp⟩
  | case5 s cs outside p c r skipped t q r' read short good ih =>
    have first := isWritten_token s.operand p c r
    rw [read] at first
    exact List.forall_mem_cons.2 ⟨first, ih⟩
  | case6 s cs outside p c r skipped t q r' read =>
    have first := isWritten_token s.operand p c r
    rw [read] at first
    exact List.forall_mem_cons.2 ⟨first, by simp⟩

/-- The names of closures are not names of a script. -/
theorem isClosureName_of_mem_scan {s : State} {cs : List Char} {name : String}
    (h : .name name ∈ (scan s cs).map (·.token)) : Parser.isClosureName name = false := by
  obtain ⟨t, mem, eq⟩ := List.mem_map.1 h
  have written := isWritten_of_mem_scan t mem name eq
  rw [Bool.eq_false_iff]
  intro closure
  obtain ⟨rest, split⟩ := List.isPrefixOf_iff_prefix.1 closure
  rw [← split, List.all_append, Bool.and_eq_true] at written
  exact absurd written.1 (by decide)

end Lexer

namespace Parser

variable {fuel : Nat} {a : Around} {r s : Reading}

theorem take_of_whole {p : Placed} (whole : r.IsWhole) (read : Reader.take r = .ok (p, s))
    (more : (r.rest.headD ⟨.ended, Pos.start⟩).token ≠ .ended) :
    r.rest = p :: s.rest ∧ s.rest ≠ [] := by
  match ahead : r.rest with
  | [] => simp [ahead] at more
  | [q] =>
    have last := whole q (by simp [ahead])
    simp [ahead, last] at more
  | q :: u :: us =>
    rw [Reader.take, ahead] at read
    cases read
    simp

/-- A statement that does not count ends with a semicolon or with the brace of a body. -/
theorem exists_last_of_skip {st : Stmt} (whole : r.IsWhole)
    (more : (r.rest.headD ⟨.ended, Pos.start⟩).token ≠ .ended) (skip : st.isSkip = true)
    (read : statement fuel a r = .ok (st, s)) :
    ∃ front p, p.token ∈ [.sign ";", .sign "\x7d"] ∧ r.rest = front ++ p :: s.rest ∧
      s.rest ≠ [] := by
  cases fuel with
  | zero => exact absurd read (fails_tooDeep r st s)
  | succ fuel =>
    have among := mem_skips read skip
    rw [statement, bind_of_ok (peeked r)] at read
    have defined {p : Pos} {r : Reading} (whole : r.IsWhole)
        (read : definition fuel p r = .ok (st, s)) : ∃ front p,
        p.token ∈ [.sign ";", .sign "\x7d"] ∧ r.rest = front ++ p :: s.rest ∧ s.rest ≠ [] := by
      obtain ⟨front, q, closes, left, rest, -⟩ := sealed_definition fuel p r st s whole.endsOpen read
      exact ⟨front, q, by simp [closes], rest, left⟩
    rcases skips_cases among more with head | head | head
    · simp only [head] at read
      obtain ⟨q, r₁, taken, read⟩ := ok_of_bind read
      cases read
      obtain ⟨rest, left⟩ := take_of_whole whole taken more
      rw [rest, List.headD_cons] at head
      exact ⟨[], q, by simp [head], rest, left⟩
    · simp only [head] at read
      split at read
      · exact defined whole read
      · exact absurd read (fails_fail r st s)
    · simp only [head] at read
      split at read
      · obtain ⟨q, r₁, taken, read⟩ := ok_of_bind read
        obtain ⟨rest, left⟩ := take_of_whole whole taken more
        have whole₁ : r₁.IsWhole := whole.of_append [q] rest
        rw [bind_of_ok (peeked r₁)] at read
        split at read
        · obtain ⟨front, p, closes, rest', left'⟩ := defined whole₁ read
          exact ⟨q :: front, p, closes, by rw [rest, rest', List.cons_append], left'⟩
        · exact absurd read (fails_refuse r₁ st s)
      · exact absurd read (fails_fail r st s)

/-- A row of definitions is read to its end, and its last token opens nothing. -/
theorem exists_front_of_script (whole : r.IsWhole) (filled : r.rest ≠ [])
    (read : script fuel a [] r = .ok ([], s)) :
    ∃ front e rest, r.rest = front ++ e :: rest ∧ e.token = .ended ∧
      ∀ p ∈ front.getLast?, p.token ∈ [.sign ";", .sign "\x7d"] := by
  induction fuel generalizing r with
  | zero => exact absurd read (fails_tooDeep r [] s)
  | succ fuel ih =>
    rcases skip_of_script read with ⟨ended, rfl⟩ | ⟨more, st, r₁, first, skip, read⟩
    · obtain ⟨e, rest, ahead⟩ := List.exists_cons_of_ne_nil filled
      rw [ahead, List.headD_cons] at ended
      exact ⟨[], e, rest, ahead, ended, by simp⟩
    · obtain ⟨front, p, closes, rest, left⟩ := exists_last_of_skip whole more skip first
      have whole₁ : r₁.IsWhole := whole.of_append (front ++ [p]) (by simpa using rest)
      obtain ⟨front', e, rest', ahead, ended, last⟩ := ih whole₁ left read
      refine ⟨front ++ p :: front', e, rest', by rw [rest, ahead]; simp, ended, ?_⟩
      rintro q hq
      rw [List.getLast?_append, List.getLast?_cons] at hq
      simp only [Option.some_or, Option.mem_def, Option.some.injEq] at hq
      cases behind : front'.getLast? with
      | none =>
        rw [behind, Option.getD_none] at hq
        rwa [← hq]
      | some u =>
        rw [behind, Option.getD_some] at hq
        exact last q (hq ▸ behind)

theorem eq_of_append_ended {ts us vs : List Token} (h : ts ++ [.ended] = us ++ .ended :: vs)
    (first : .ended ∉ ts) : us = ts := by
  induction ts generalizing us with
  | nil =>
    cases us with
    | nil => rfl
    | cons u us => simp at h
  | cons t ts ih =>
    rw [List.mem_cons, not_or] at first
    cases us with
    | nil => exact absurd (List.cons.inj h).1.symm first.1
    | cons u us =>
      rw [List.cons_append, List.cons_append, List.cons.injEq] at h
      rw [h.1, ih h.2 first.2]

theorem not_mem_openers {t : Token} (h : t ∈ [Token.sign ";", .sign "\x7d"]) : t ∉ openers := by
  revert t
  decide

/--
Definitions that make up a text are passed over in front of a script; the functions there are the same
but for those of closures.
-/
theorem script_definitions {text : String} {functions : List Function} {ts : List Token}
    {front behind : List Placed} {r : Reading} (extra : Nat)
    (alone : (tokens text).map (·.token) = ts ++ [.ended])
    (parsed : parse text = .ok ⟨functions, []⟩) (ahead : r.rest = front ++ behind)
    (row : front.map (·.token) = ts) (filled : behind ≠ [])
    (vars : ∀ name, r.vars.lookup name ≠ some true) (none : r.functions = []) :
    ∃ fuel s, extra ≤ fuel ∧
      (∀ acc, script (extra + fuelFor (tokens text)) ⟨true, false, false, false, 0, depthLimit⟩ acc r =
        script fuel ⟨true, false, false, false, 0, depthLimit⟩ acc s) ∧
      s.rest = behind ∧ s.vars = r.vars ∧
      ∀ name count, isClosureName name = false → Defines s.functions name count →
        Defines functions name count := by
  obtain ⟨s, read, rfl⟩ : ∃ s, script (fuelFor (tokens text))
      ⟨true, false, false, false, 0, depthLimit⟩ [] ⟨tokens text, [], [], []⟩ = .ok ([], s) ∧
      s.functions.reverse = functions := by
    rw [← parseWithin_depthLimit] at parsed
    unfold parseWithin at parsed
    cases read : script (fuelFor (tokens text)) ⟨true, false, false, false, 0, depthLimit⟩ []
        ⟨tokens text, [], [], []⟩ with
    | error fault => simp [read, bind, Except.bind] at parsed
    | ok result =>
      simp only [read, bind, Except.bind, Pure.pure, Except.pure, Except.ok.injEq,
        Program.mk.injEq] at parsed
      exact ⟨result.2, by rw [← parsed.2], parsed.1⟩
  have whole : Reading.IsWhole ⟨tokens text, [], [], []⟩ := by
    intro p hp
    have last := congrArg List.getLast? alone
    rw [List.getLast?_map, show (tokens text).getLast? = some p from hp] at last
    simpa using last
  have more : .ended ∉ ts := Lexer.ended_not_mem alone
  have closed : ∀ t ∈ ts.getLast?, t ∉ openers := by
    obtain ⟨front₀, e, rest, split, ended, last⟩ :=
      exists_front_of_script whole (Lexer.scan_ne_nil _ _) read
    have split : tokens text = front₀ ++ e :: rest := split
    rw [split, List.map_append, List.map_cons, ended] at alone
    rw [← eq_of_append_ended alone.symm more, List.getLast?_map]
    rintro t ht
    obtain ⟨p, hp, rfl⟩ := Option.map_eq_some_iff.1 ht
    exact not_mem_openers (last p hp)
  have beside : Beside ⟨ts, [.ended], 0, fun _ _ => False, closed⟩ behind ⟨[], ts⟩
      ⟨tokens text, [], [], []⟩ r := by
    refine ⟨⟨front, row, ahead, ?_⟩, ?_⟩
    · refine ⟨alone, ?_, ⟨[], rfl, rfl⟩, ?_, ?_, ?_⟩
      · rw [List.map_append, row]
        rfl
      · exact fun name constant => absurd constant (vars name)
      · simp [none]
      · rintro name count - ⟨f, member, -⟩
        simp [none] at member
    · exact ⟨rfl, by simp [Lexer.Settled]⟩
  obtain ⟨fuel, s', w', enough, same, passed, beside', vars'⟩ :=
    script_beside extra beside filled rfl rfl more
      (fun name mem => Lexer.isClosureName_of_mem_scan (by
        show Token.name name ∈ (tokens text).map (·.token)
        rw [alone]
        exact List.mem_append_left _ mem))
      (fun _ _ => id) read
  obtain ⟨front', row', ahead', alike⟩ := beside'.ahead
  refine ⟨fuel, s', enough, same, ?_, vars', fun name count written found => ?_⟩
  · rw [passed, List.map_eq_nil_iff] at row'
    rw [ahead', row', List.nil_append]
  · obtain ⟨f, member, same⟩ := (alike.defined name count written found).resolve_right id
    exact ⟨f, List.mem_reverse.2 member, same⟩

end Parser

end Stencil.Script
