import Stencil.Proofs.Script.Places

/-!
# One reader behind another

A text is read alone and, with the same tokens, in front of a closing parenthesis.  As long as
tokens of the text are ahead, both readers see the same; at its end one sees the end of the script and the
other the parenthesis.  What succeeds alone then succeeds inside, with the same tree but for the
places.  The end of the text is told from a parenthesis in a few places only: where a token has just
been read that opens something, a closure or the value of a jump.
-/

namespace Stencil.Script

variable {α β γ δ : Type}

/-! ## Braces -/

namespace Lexer

/-- Whether a token opens or closes a brace, or the expression in a back-tick string. -/
def isBrace : Token → Bool
  | .sign s => s = "\x7b" || s = "#\x7b" || s = "\x7d"
  | .opening _ => true
  | _ => false

/-- A token is no brace if something holds of it that holds of no brace. -/
theorem isBrace_eq_false_of {P : Token → Prop} {t : Token} (h : P t)
    (signs : ∀ s ∈ ["\x7b", "#\x7b", "\x7d"], ¬P (.sign s)) (openings : ∀ s, ¬P (.opening s)) :
    isBrace t = false := by
  cases t with
  | sign s =>
    rw [← Bool.not_eq_true]
    intro brace
    exact signs s (by simpa [isBrace, or_assoc] using brace) h
  | opening s => exact absurd h (openings s)
  | _ => rfl

/-- How many braces are open in the open back-tick strings behind a token. -/
def depthsBehind (depths : List Nat) (t : Token) : List Nat :=
  (State.behind ⟨Pos.start, false, depths, false⟩ t Pos.start).depths

theorem depths_behind (s : State) (t : Token) (p : Pos) :
    (s.behind t p).depths = depthsBehind s.depths t := by
  cases s with
  | mk q operand depths inText =>
    unfold depthsBehind State.behind
    cases depths with
    | nil => split <;> simp_all
    | cons d ds => split <;> simp_all <;> split <;> rfl

theorem depthsBehind_of_isBrace_eq_false {depths : List Nat} {t : Token}
    (h : isBrace t = false) : depthsBehind depths t = depths := by
  unfold depthsBehind State.behind
  split <;> simp_all [isBrace]

/-- A statement is never read right behind the beginning of an expression in a back-tick string. -/
def Settled (depths : List Nat) : Prop := depths.head? ≠ some 0

theorem settled_opening (depths : List Nat) : Settled (depthsBehind depths (.sign "\x7b")) := by
  cases depths <;> simp [Settled, depthsBehind, State.behind]

theorem settled_opening_fields (depths : List Nat) :
    Settled (depthsBehind depths (.sign "#\x7b")) := by
  cases depths <;> simp [Settled, depthsBehind, State.behind]

/-- A block leaves the braces around it as they were. -/
theorem depthsBehind_closing {depths : List Nat} (h : Settled depths) :
    depthsBehind (depthsBehind depths (.sign "\x7b")) (.sign "\x7d") = depths := by
  cases depths with
  | nil => rfl
  | cons d ds =>
    have open_ : d ≠ 0 := by simpa [Settled] using h
    simp [depthsBehind, State.behind, open_]

theorem depthsBehind_closing_fields {depths : List Nat} (h : Settled depths) :
    depthsBehind (depthsBehind depths (.sign "#\x7b")) (.sign "\x7d") = depths := by
  cases depths with
  | nil => rfl
  | cons d ds =>
    have open_ : d ≠ 0 := by simpa [Settled] using h
    simp [depthsBehind, State.behind, open_]

/-- The block of an expression in a back-tick string closes the expression. -/
theorem depthsBehind_closing_opening (depths : List Nat) (text : String) :
    depthsBehind (depthsBehind (depthsBehind depths (.opening text)) (.sign "\x7b"))
      (.sign "\x7d") = depths :=
  rfl

end Lexer

open Lexer (depthsBehind isBrace depthsBehind_of_isBrace_eq_false Settled)

/-! ## Two readings -/

/-- The tokens behind which a parenthesis is not the end of the text. -/
def openers : List Token :=
  [.sign "|", .sign "||", .sign "=>", .word "return", .word "throw", .word "break"]

/--
The tokens of a text, those behind the parenthesis, how many functions are read before, and which
names and counts of parameters these may have.
-/
structure Passage where
  tokens : List Token
  behind : List Token
  earlier : Nat
  known : String → Nat → Prop
  closed : ∀ t ∈ tokens.getLast?, t ∉ openers

/-- Among the functions there is one of this name with so many parameters. -/
def Defines (functions : List Function) (name : String) (count : Nat) : Prop :=
  ∃ f ∈ functions, f.name = name ∧ f.params.length = count

/-- What is ahead of a reader up to the end of the text. -/
structure Ahead where
  depths : List Nat
  tokens : List Token

/-- Between `w` and `w'` the token `t` is taken. -/
structure Took (w : Ahead) (t : Token) (w' : Ahead) : Prop where
  tokens : w.tokens = t :: w'.tokens
  depths : w'.depths = depthsBehind w.depths t
  filled : t ∈ openers → w'.tokens ≠ []

/-- A reader of the text alone, and one of the text inside a script. -/
structure Alike (c : Passage) (w : Ahead) (r r' : Reading) : Prop where
  alone : r.rest.map (·.token) = w.tokens ++ [.ended]
  inside : r'.rest.map (·.token) = w.tokens ++ .sign ")" :: c.behind
  read : ∃ ts, c.tokens = ts ++ w.tokens ∧ w.depths = ts.foldl depthsBehind []
  constants : ∀ name, r'.vars.lookup name = some true → r.vars.lookup name = some true
  functions : r'.functions.length = r.functions.length + c.earlier
  defined : ∀ name count, Parser.isClosureName name = false → Defines r'.functions name count →
    Defines r.functions name count ∨ c.known name count

theorem isClosureName_closureName (count : Nat) :
    Parser.isClosureName (Parser.closureName count) = true := by
  simp [Parser.isClosureName, Parser.closureName]

/-- Behind the body of a closure, which is a function more, the variables around it are back. -/
theorem Alike.enclosing {c : Passage} {w u : Ahead} {r r' outer outer' : Reading}
    (h : Alike c w r r') (outside : Alike c u outer outer') {f f' : Function}
    (named : Parser.isClosureName f'.name = true) :
    Alike c w
      { r with vars := outer.vars, free := outer.free, functions := f :: r.functions }
      { r' with vars := outer'.vars, free := outer'.free, functions := f' :: r'.functions } := by
  refine ⟨h.alone, h.inside, h.read, outside.constants, ?_, ?_⟩
  · have count := h.functions
    simp only [List.length_cons]
    omega
  · rintro name count other ⟨g, member, rfl, rfl⟩
    rcases List.mem_cons.1 member with rfl | member
    · rw [named] at other
      cases other
    · rcases h.defined _ _ other ⟨g, member, rfl, rfl⟩ with ⟨g', member', same⟩ | known
      · exact .inl ⟨g', List.mem_cons_of_mem _ member', same⟩
      · exact .inr known

/-- Where `m` succeeds on the text alone, `m'` succeeds inside, with a result that `P` relates. -/
def Follows (c : Passage) (m : Reader α) (m' : Reader β) (w : Ahead) (P : Ahead → α → β → Prop) :
    Prop :=
  ∀ r r', Alike c w r r' → ∀ a s, m r = .ok (a, s) →
    ∃ b s' w', m' r' = .ok (b, s') ∧ P w' a b ∧ Alike c w' s s'

/-- A reader that gives nothing, wherever it stands. -/
def Fails (m : Reader α) : Prop := ∀ r a s, m r ≠ .ok (a, s)

section

variable {f : α → Reader β} {m : Reader α} {reason : String} {p : Pos} {q : Placed}

theorem ok_of_bind {r : Reading} {b : β} {s : Reading} (h : (m >>= f) r = .ok (b, s)) :
    ∃ a r', m r = .ok (a, r') ∧ f a r' = .ok (b, s) := by
  change (m r).bind _ = _ at h
  cases first : m r with
  | error fault => simp [first, Except.bind] at h
  | ok result =>
    rw [first] at h
    exact ⟨result.1, result.2, rfl, h⟩

theorem bind_of_ok {r s : Reading} {a : α} (h : m r = .ok (a, s)) : (m >>= f) r = f a s := by
  change (m r).bind _ = _
  rw [h]
  rfl

theorem fails_fail : Fails (Reader.fail reason p : Reader α) := fun _ _ _ => nofun

theorem fails_refuse : Fails (Reader.refuse reason q : Reader α) := by
  unfold Reader.refuse
  split <;> exact fails_fail

theorem fails_tooDeep : Fails (Reader.tooDeep : Reader α) := fun _ _ _ => nofun

theorem fails_refused {e : Expr} {expected : String} : Fails (e.refused expected : Reader α) :=
  fails_fail

theorem Fails.bind (h : Fails m) : Fails (m >>= f) := by
  intro r b s eq
  obtain ⟨a, r', first, -⟩ := ok_of_bind eq
  exact h r a r' first

end

namespace Follows

variable {c : Passage} {m : Reader α} {m' : Reader β} {f : α → Reader γ} {f' : β → Reader δ}
  {w : Ahead} {P Q : Ahead → α → β → Prop} {R : Ahead → γ → δ → Prop} {t : Token}
  {ts : List Token}

theorem pure {a : α} {b : β} (h : P w a b) : Follows c (Pure.pure a) (Pure.pure b) w P := by
  rintro r r' alike _ _ ⟨⟩
  exact ⟨b, r', w, rfl, h, alike⟩

theorem of_fails (h : Fails m) : Follows c m m' w P :=
  fun r _ _ a s eq => absurd eq (h r a s)

theorem bind (first : Follows c m m' w P)
    (second : ∀ w' a b, P w' a b → Follows c (f a) (f' b) w' R) :
    Follows c (m >>= f) (m' >>= f') w R := by
  intro r r' alike b s eq
  obtain ⟨a, s₁, eq₁, eq₂⟩ := ok_of_bind eq
  obtain ⟨a', s₁', w₁, eq₁', holds, alike₁⟩ := first r r' alike a s₁ eq₁
  obtain ⟨b', s', w', eq₂', holds', alike'⟩ := second w₁ a a' holds s₁ s₁' alike₁ b s eq₂
  exact ⟨b', s', w', (bind_of_ok eq₁').trans eq₂', holds', alike'⟩

theorem mono (h : Follows c m m' w P) (weaker : ∀ w' a b, P w' a b → Q w' a b) :
    Follows c m m' w Q := by
  intro r r' alike a s eq
  obtain ⟨b, s', w', eq', holds, alike'⟩ := h r r' alike a s eq
  exact ⟨b, s', w', eq', weaker w' a b holds, alike'⟩

theorem get_bind {f : Reading → Reader α} {f' : Reading → Reader β}
    (h : ∀ r r', Alike c w r r' → Follows c (f r) (f' r') w P) :
    Follows c (get >>= f) (get >>= f') w P :=
  fun r r' alike a s eq => h r r' alike r r' alike a s eq

theorem set_bind {f : PUnit → Reader α} {f' : PUnit → Reader β} {r r' : Reading} {w' : Ahead}
    (alike : Alike c w' r r') (h : Follows c (f ()) (f' ()) w' P) :
    Follows c (set r >>= f) (set r' >>= f') w P :=
  fun _ _ _ a s eq => h r r' alike a s eq

/-! ## Tokens -/

theorem peek_cons (h : w.tokens = t :: ts) :
    Follows c Reader.peek Reader.peek w (fun w' p p' => w' = w ∧ p.token = t ∧ p'.token = t) := by
  rintro r r' alike _ _ ⟨⟩
  have alone := alike.alone
  have inside := alike.inside
  rw [h, List.cons_append] at alone inside
  obtain ⟨p, rest, hr, hp, -⟩ := List.map_eq_cons_iff.1 alone
  obtain ⟨p', rest', hr', hp', -⟩ := List.map_eq_cons_iff.1 inside
  refine ⟨_, r', w, rfl, ⟨rfl, ?_, ?_⟩, alike⟩
  · rw [hr, List.headD_cons, hp]
  · rw [hr', List.headD_cons, hp']

theorem peek_nil (h : w.tokens = []) :
    Follows c Reader.peek Reader.peek w
      (fun w' p p' => w' = w ∧ p.token = .ended ∧ p'.token = .sign ")") := by
  rintro r r' alike _ _ ⟨⟩
  have alone := alike.alone
  have inside := alike.inside
  rw [h, List.nil_append] at alone inside
  obtain ⟨p, rest, hr, hp, -⟩ := List.map_eq_cons_iff.1 alone
  obtain ⟨p', rest', hr', hp', -⟩ := List.map_eq_cons_iff.1 inside
  refine ⟨_, r', w, rfl, ⟨rfl, ?_, ?_⟩, alike⟩
  · rw [hr, List.headD_cons, hp]
  · rw [hr', List.headD_cons, hp']

theorem take_cons (h : w.tokens = t :: ts) :
    Follows c Reader.take Reader.take w
      (fun w' p p' => Took w t w' ∧ p.token = t ∧ p'.token = t) := by
  rintro r r' alike a s eq
  have alone := alike.alone
  have inside := alike.inside
  rw [h, List.cons_append] at alone inside
  obtain ⟨p, rest, hr, hp, tail⟩ := List.map_eq_cons_iff.1 alone
  obtain ⟨p', rest', hr', hp', tail'⟩ := List.map_eq_cons_iff.1 inside
  obtain ⟨q, more, rfl⟩ : ∃ q more, rest = q :: more := by
    cases rest <;> simp at tail ⊢
  obtain ⟨q', more', rfl⟩ : ∃ q more, rest' = q :: more := by
    cases rest' <;> simp at tail' ⊢
  have taken : Reader.take r = .ok (p, { r with rest := q :: more }) := by
    simp [Reader.take, hr]
  have taken' : Reader.take r' = .ok (p', { r' with rest := q' :: more' }) := by
    simp [Reader.take, hr']
  rw [taken] at eq
  cases eq
  obtain ⟨before, whole, depths⟩ := alike.read
  have took : Took w t ⟨depthsBehind w.depths t, ts⟩ := by
    refine ⟨h, rfl, ?_⟩
    rintro opens rfl
    have last : c.tokens.getLast? = some t := by simp [whole, h]
    exact c.closed t (by simp [last]) opens
  refine ⟨p', _, _, taken', ⟨took, hp, hp'⟩, tail, tail', ⟨before ++ [t], ?_, ?_⟩, alike.constants,
    alike.functions, alike.defined⟩
  · simp [whole, h]
  · rw [List.foldl_append, ← depths]
    rfl

/-- What is done with the token that is taken fails at the end of the text. -/
theorem take_bind {f : Placed → Reader α} {f' : Placed → Reader β}
    (token : ∀ t w' p p', Took w t w' → p.token = t → p'.token = t →
      Follows c (f p) (f' p') w' P)
    (ended : ∀ p, p.token = .ended → Fails (f p)) :
    Follows c (Reader.take >>= f) (Reader.take >>= f') w P := by
  cases h : w.tokens with
  | cons t ts =>
    exact bind (take_cons h) fun w' p p' ⟨took, hp, hp'⟩ => token t w' p p' took hp hp'
  | nil =>
    intro r r' alike a s eq
    obtain ⟨p, r₁, first, second⟩ := ok_of_bind eq
    have alone := alike.alone
    rw [h, List.nil_append] at alone
    obtain ⟨q, hr, hq⟩ := List.map_eq_singleton_iff.1 alone
    have taken : Reader.take r = .ok (q, r) := by
      simp [Reader.take, hr]
    rw [taken] at first
    cases first
    exact absurd second (ended p hq _ _ _)

theorem expect {purpose : String} (h : t ≠ .ended) :
    Follows c (Reader.expect t purpose) (Reader.expect t purpose) w
      (fun w' _ _ => Took w t w') := by
  refine take_bind (fun u w' p p' took hp hp' => ?_) fun p hp => ?_
  · by_cases same : u = t
    · subst same
      simp only [hp, hp', if_true]
      exact pure took
    · simp only [hp, same, if_false]
      exact of_fails fails_refuse
  · rw [if_neg (by rw [hp]; exact h.symm)]
    exact fails_refuse

theorem accept (h : t ≠ .ended) (h' : t ≠ .sign ")") :
    Follows c (Reader.accept t) (Reader.accept t) w (fun w' a b => a = b ∧
      (b = true ∧ Took w t w' ∨ b = false ∧ w' = w ∧ w.tokens.head? ≠ some t)) := by
  cases hw : w.tokens with
  | nil =>
    refine bind (peek_nil hw) ?_
    rintro _ p p' ⟨rfl, hp, hp'⟩
    rw [if_neg (by rw [hp]; exact h.symm), if_neg (by rw [hp']; exact h'.symm)]
    exact pure ⟨rfl, .inr ⟨rfl, rfl, by simp⟩⟩
  | cons u us =>
    refine bind (peek_cons hw) ?_
    rintro _ p p' ⟨rfl, hp, hp'⟩
    by_cases same : u = t
    · subst same
      simp only [hp, hp', if_true]
      exact bind (take_cons hw) fun _ _ _ ⟨took, _, _⟩ => pure ⟨rfl, .inl ⟨rfl, took⟩⟩
    · simp only [hp, hp', same, if_false]
      exact pure ⟨rfl, .inr ⟨rfl, rfl, by simpa using same⟩⟩

theorem sees {tokens : List Token} (h : w.tokens ≠ []) :
    Follows c (Reader.sees tokens) (Reader.sees tokens) w
      (fun w' a b => w' = w ∧ a = b) := by
  obtain ⟨t, ts, hw⟩ := List.exists_cons_of_ne_nil h
  refine bind (peek_cons hw) ?_
  rintro _ p p' ⟨rfl, hp, hp'⟩
  exact pure ⟨rfl, by rw [hp, hp']⟩

/-! ## Variables -/

theorem enclosed (h : Follows c m m' w P) :
    Follows c (Reader.enclosed m) (Reader.enclosed m') w P := by
  intro r r' alike a s eq
  obtain ⟨vars, r₁, first, eq⟩ := ok_of_bind eq
  cases first
  obtain ⟨a', r₂, read, eq⟩ := ok_of_bind eq
  obtain ⟨b, s', w', read', holds, alike'⟩ := h r r' alike a' r₂ read
  cases eq
  have restored : Reader.enclosed m' r' = (m' >>= fun a => do
      modify fun s => { s with vars := r'.vars }
      return a) r' := rfl
  exact ⟨b, { s' with vars := r'.vars }, w', restored.trans (bind_of_ok read'), holds,
    alike'.alone, alike'.inside, alike'.read, alike.constants, alike'.functions, alike'.defined⟩

theorem bind_variable {name : String} {constant : Bool} :
    Follows c (Reader.bind name constant) (Reader.bind name constant) w (fun w' _ _ => w' = w) := by
  rintro r r' alike _ _ ⟨⟩
  refine ⟨(), _, w, rfl, rfl, alike.alone, alike.inside, alike.read, fun other h => ?_,
    alike.functions, alike.defined⟩
  simp only [List.lookup_cons] at h ⊢
  split
  · rename_i same
    simpa [same] using h
  · rename_i same
    exact alike.constants other (by simpa [same] using h)

theorem variableName :
    Follows c Reader.variableName Reader.variableName w
      (fun w' a b => a.1 = b.1 ∧ ∃ name, Took w (.name name) w') := by
  refine take_bind (fun u w' p p' took hp hp' => ?_) fun p hp => ?_
  · cases u with
    | name n =>
      simp only [hp, hp']
      exact pure ⟨rfl, n, took⟩
    | _ =>
      simp only [hp]
      first
        | exact of_fails fails_fail
        | exact of_fails fails_refuse
  · simp only [hp]
    exact fails_refuse

/-- A reader that only notes which variables it has seen. -/
def Harmless (m : Reader Unit) : Prop :=
  ∀ r, ∃ free, m r = .ok ((), { r with free })

theorem harmless_mention {name : String} {p : Pos} : Harmless (Reader.mention name p) := by
  intro r
  have noted : Reader.mention name p r = .ok ((),
      if ((r.vars.any (·.1 = name)) || r.free.any (·.1 = name)) = true then r
      else { r with free := r.free ++ [(name, p)] }) := rfl
  rw [noted]
  split
  · exact ⟨r.free, rfl⟩
  · exact ⟨r.free ++ [(name, p)], rfl⟩

theorem of_harmless {m m' : Reader Unit} (h : Harmless m) (h' : Harmless m') :
    Follows c m m' w (fun w' _ _ => w' = w) := by
  intro r r' alike a s eq
  obtain ⟨free, run⟩ := h r
  obtain ⟨free', run'⟩ := h' r'
  rw [run] at eq
  cases eq
  exact ⟨(), _, w, run', rfl, alike.alone, alike.inside, alike.read, alike.constants,
    alike.functions, alike.defined⟩

end Follows

/-! ## Braces around a reader -/

/-- The braces that are open are `depths`, as they are where a statement or an expression begins. -/
structure Stands (w : Ahead) (depths : List Nat) : Prop where
  count : w.depths = depths
  settled : Settled depths

/-- Behind the closing brace the braces that are open are `depths`. -/
structure Encloses (w : Ahead) (depths : List Nat) : Prop where
  inside : Settled w.depths
  closing : depthsBehind w.depths (.sign "\x7d") = depths
  settled : Settled depths

/-- A block begins ahead, behind which the braces that are open are `depths`. -/
def Opens (w : Ahead) (depths : List Nat) : Prop :=
  ∀ w', Took w (.sign "\x7b") w' → Encloses w' depths

section

variable {w w' : Ahead} {depths : List Nat} {t : Token} {text : String}

theorem Stands.took (h : Stands w depths) (took : Took w t w') (plain : isBrace t = false) :
    Stands w' depths :=
  ⟨by rw [took.depths, depthsBehind_of_isBrace_eq_false plain, h.count], h.settled⟩

theorem Stands.opens (h : Stands w depths) : Opens w depths := by
  intro w' took
  refine ⟨?_, ?_, h.settled⟩
  · rw [took.depths]
    exact Lexer.settled_opening _
  · rw [took.depths, h.count]
    exact Lexer.depthsBehind_closing h.settled

theorem Stands.fields (h : Stands w depths) (took : Took w (.sign "#\x7b") w') :
    Encloses w' depths := by
  refine ⟨?_, ?_, h.settled⟩
  · rw [took.depths]
    exact Lexer.settled_opening_fields _
  · rw [took.depths, h.count]
    exact Lexer.depthsBehind_closing_fields h.settled

/-- The expression in a back-tick string is a block, behind which the string goes on. -/
theorem Stands.piece (h : Stands w depths) (took : Took w (.opening text) w') :
    Opens w' depths := by
  intro w'' took'
  refine ⟨?_, ?_, h.settled⟩
  · rw [took'.depths]
    exact Lexer.settled_opening _
  · rw [took'.depths, took.depths, h.count]
    exact Lexer.depthsBehind_closing_opening depths text

theorem Encloses.stands (h : Encloses w depths) : Stands w w.depths := ⟨rfl, h.inside⟩

theorem Encloses.kept (h : Encloses w depths) (kept : Stands w' w.depths) : Encloses w' depths :=
  ⟨kept.count ▸ h.inside, kept.count ▸ h.closing, h.settled⟩

theorem Encloses.took (h : Encloses w depths) (took : Took w t w') (plain : isBrace t = false) :
    Encloses w' depths :=
  h.kept (h.stands.took took plain)

theorem Encloses.closed (h : Encloses w depths) (took : Took w (.sign "\x7d") w') :
    Stands w' depths :=
  ⟨by rw [took.depths, h.closing], h.settled⟩

end

/-- The results are related, and the braces that are open are `depths`. -/
def Kept {α β : Type} (depths : List Nat) (P : α → β → Prop) (w : Ahead) (a : α) (b : β) : Prop :=
  Stands w depths ∧ P a b

/-! ## Surroundings -/

/-- Inside, a reader of expressions has the same surroundings and at least the same room. -/
structure Roomier (a a' : Around) : Prop where
  top : a.top = false
  top' : a'.top = false
  inLoop : a'.inLoop = a.inLoop
  inFunction : a'.inFunction = a.inFunction
  inPattern : a'.inPattern = a.inPattern
  room : a.limit + a'.depth ≤ a'.limit + a.depth

namespace Roomier

variable {a a' : Around}

theorem inner (h : Roomier a a') : Roomier a.inner a'.inner :=
  ⟨rfl, rfl, h.inLoop, h.inFunction, h.inPattern, h.room⟩

theorem loop (h : Roomier a a') : Roomier { a with inLoop := true } { a' with inLoop := true } :=
  ⟨h.top, h.top', rfl, h.inFunction, h.inPattern, h.room⟩

theorem pattern (h : Roomier a a') :
    Roomier { a with inPattern := true } { a' with inPattern := true } :=
  ⟨h.top, h.top', h.inLoop, h.inFunction, rfl, h.room⟩

theorem refl (h : a.top = false) : Roomier a a := ⟨h, h, rfl, rfl, rfl, Nat.le_refl _⟩

end Roomier

theorem Follows.deeper {c : Passage} {w : Ahead} {a a' : Around} (h : Roomier a a') :
    Follows c a.deeper a'.deeper w (fun w' b b' => w' = w ∧ Roomier b b') := by
  unfold Around.deeper
  by_cases full : a.limit ≤ a.depth
  · rw [if_pos full]
    exact .of_fails fails_tooDeep
  · have room := h.room
    rw [if_neg full, if_neg (by omega)]
    refine Follows.pure ⟨rfl, h.top, h.top', h.inLoop, h.inFunction, h.inPattern, ?_⟩
    simp only
    omega

end Stencil.Script
