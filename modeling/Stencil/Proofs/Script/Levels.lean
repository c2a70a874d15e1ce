import Mathlib.Algebra.GroupWithZero.Nat
import Stencil.Proofs.Script.Forks.Expressions

/-!
# Texts inside of braces

A row of tokens is balanced if each of its braces is closed in it.  A balanced text has the same
tokens wherever it stands, in the expression of a back-tick string as well as outside, and leaves the
braces around it as they are.
-/

namespace Stencil.Script

open Resolver (modeName)

/-! ## Levels -/

/-- How many braces are open behind a token; none if it closes one that is not open. -/
def levelBehind? (level : Nat) : Token → Option Nat
  | .sign s =>
    if s = "\x7b" ∨ s = "#\x7b" then some (level + 1)
    else if s = "\x7d" then if level = 0 then none else some (level - 1)
    else some level
  | _ => some level

/-- How many braces are open behind a row of tokens, if none is closed that was opened before. -/
def level? (level : Nat) : List Token → Option Nat
  | [] => some level
  | t :: ts => (levelBehind? level t).bind (level? · ts)

/-- Each brace in the row is closed in it, and no other one. -/
def IsBalanced (ts : List Token) : Prop := level? 0 ts = some 0

section

variable {k m n : Nat} {t : Token} {ts us : List Token}

theorem levelBehind?_cases (k : Nat) (t : Token) :
    (t = .sign "\x7b" ∨ t = .sign "#\x7b") ∧ levelBehind? k t = some (k + 1) ∨
    t = .sign "\x7d" ∧ levelBehind? k t = (if k = 0 then none else some (k - 1)) ∨
    t ∉ [.sign "\x7b", .sign "#\x7b", .sign "\x7d"] ∧ levelBehind? k t = some k := by
  cases t with
  | sign s =>
    simp only [levelBehind?, Token.sign.injEq, List.mem_cons, List.not_mem_nil, or_false, not_or]
    by_cases opens : s = "\x7b" ∨ s = "#\x7b"
    · exact .inl ⟨opens, if_pos opens⟩
    · rw [if_neg opens]
      rw [not_or] at opens
      by_cases closes : s = "\x7d"
      · exact .inr (.inl ⟨closes, if_pos closes⟩)
      · exact .inr (.inr ⟨⟨opens.1, opens.2, closes⟩, if_neg closes⟩)
  | _ => exact .inr (.inr ⟨by simp, rfl⟩)

theorem level?_append : level? k (ts ++ us) = (level? k ts).bind (level? · us) := by
  induction ts generalizing k with
  | nil => rfl
  | cons t ts ih =>
    rw [List.cons_append, level?, level?]
    cases levelBehind? k t with
    | none => rfl
    | some l => exact ih

theorem levelBehind?_of_isBrace_eq_false (h : Lexer.isBrace t = false) :
    levelBehind? k t = some k := by
  cases t <;> simp_all [Lexer.isBrace, levelBehind?]

theorem levelBehind?_add (h : levelBehind? k t = some m) :
    levelBehind? (k + n) t = some (m + n) := by
  rcases levelBehind?_cases k t with ⟨rfl | rfl, eq⟩ | ⟨rfl, eq⟩ | ⟨other, eq⟩
  · obtain rfl : k + 1 = m := by simpa [eq] using h
    exact congrArg some (by omega)
  · obtain rfl : k + 1 = m := by simpa [eq] using h
    exact congrArg some (by omega)
  · rw [eq] at h
    split at h
    · cases h
    · rename_i positive
      obtain rfl : k - 1 = m := by simpa using h
      have still : k + n ≠ 0 := by omega
      simp only [levelBehind?, String.reduceEq, or_self, if_true, if_false, still]
      exact congrArg some (by omega)
  · obtain rfl : k = m := by simpa [eq] using h
    rcases levelBehind?_cases (k + n) t with ⟨brace, -⟩ | ⟨brace, -⟩ | ⟨-, eq⟩
    · exact absurd (by rcases brace with rfl | rfl <;> simp) other
    · exact absurd (by simp [brace]) other
    · exact eq

theorem level?_add (h : level? k ts = some m) : level? (k + n) ts = some (m + n) := by
  induction ts generalizing k with
  | nil => simpa [level?] using h
  | cons t ts ih =>
    obtain ⟨l, first, others⟩ := Option.bind_eq_some_iff.1 h
    rw [level?, levelBehind?_add first, Option.bind_some]
    exact ih others

theorem IsBalanced.level? (h : IsBalanced ts) (k : Nat) : level? k ts = some k := by
  have shifted := level?_add (n := k) h
  rwa [Nat.zero_add] at shifted

theorem IsBalanced.append (h : IsBalanced ts) (h' : IsBalanced us) : IsBalanced (ts ++ us) := by
  rw [IsBalanced, level?_append, h.level? 0, Option.bind_some, h'.level? 0]

theorem IsBalanced.braces (h : IsBalanced ts) :
    IsBalanced (.sign "\x7b" :: (ts ++ [.sign "\x7d"])) := by
  change Stencil.Script.level? 1 (ts ++ [.sign "\x7d"]) = some 0
  rw [level?_append, h.level? 1]
  rfl

end

/-! ### Behind the braces -/

theorem beyond_of_level? {k m : Nat} {arm row : List Placed}
    (h : level? k (arm.map (·.token)) = some m) :
    beyond (k + 1) (arm ++ row) = beyond (m + 1) row := by
  induction arm generalizing k with
  | nil =>
    obtain rfl : k = m := by simpa [level?] using h
    rfl
  | cons t arm ih =>
    obtain ⟨l, first, others⟩ := Option.bind_eq_some_iff.1 h
    rw [← ih others, List.cons_append]
    rcases levelBehind?_cases k t.token with ⟨opens, eq⟩ | ⟨closes, eq⟩ | ⟨other, eq⟩
    · obtain rfl : k + 1 = l := by simpa [eq] using first
      exact beyond_opening opens
    · rw [eq] at first
      split at first
      · cases first
      · rename_i positive
        obtain rfl : k - 1 = l := by simpa using first
        rw [beyond_closing closes, Nat.sub_add_cancel (Nat.pos_of_ne_zero positive)]
    · obtain rfl : k = l := by simpa [eq] using first
      exact beyond_other other

/-- A brace that is closed too often is followed by a part of the row. -/
theorem beyond_of_level?_eq_none {k : Nat} {arm : List Placed} (row : List Placed)
    (h : level? k (arm.map (·.token)) = none) :
    ∃ back, back <:+ arm ∧ beyond (k + 1) (arm ++ row) = some (back ++ row) := by
  induction arm generalizing k with
  | nil => cases h
  | cons t arm ih =>
    have further {l : Nat} (first : levelBehind? k t.token = some l) :
        level? l (arm.map (·.token)) = none := by
      simpa [level?, first] using h
    rw [List.cons_append]
    rcases levelBehind?_cases k t.token with ⟨opens, eq⟩ | ⟨closes, eq⟩ | ⟨other, eq⟩
    · obtain ⟨back, suffix, found⟩ := ih (further eq)
      exact ⟨back, suffix.trans (List.suffix_cons _ _), by rw [beyond_opening opens, found]⟩
    · rw [beyond_closing closes]
      split at eq
      · rename_i zero
        exact ⟨arm, List.suffix_cons _ _, by rw [zero, beyond_zero]⟩
      · rename_i positive
        obtain ⟨back, suffix, found⟩ := ih (further eq)
        rw [Nat.sub_add_cancel (Nat.pos_of_ne_zero positive)] at found
        exact ⟨back, suffix.trans (List.suffix_cons _ _), found⟩
    · obtain ⟨back, suffix, found⟩ := ih (further eq)
      exact ⟨back, suffix.trans (List.suffix_cons _ _), by rw [beyond_other other, found]⟩

theorem IsBalanced.closed {ts : List Token} (h : IsBalanced ts) (n : Nat) {arm : List Placed}
    (row : List Placed) (tokens : arm.map (·.token) = ts) :
    beyond (n + 1) (arm ++ row) = beyond (n + 1) row :=
  beyond_of_level? (by rw [tokens, h.level? n])

theorem length_of_beyond {n : Nat} {row rest : List Placed} (h : beyond (n + 1) row = some rest) :
    rest.length < row.length := by
  induction row generalizing n with
  | nil => cases h
  | cons t row ih =>
    rw [beyond] at h
    split at h
    · exact Nat.lt_succ_of_lt (ih h)
    · exact Nat.lt_succ_of_lt (ih h)
    · cases n with
      | zero =>
        rw [beyond_zero, Option.some.injEq] at h
        exact h ▸ Nat.lt_succ_self _
      | succ n => exact Nat.lt_succ_of_lt (ih h)
    · exact Nat.lt_succ_of_lt (ih h)

/-- A row that is closed by the brace behind it is balanced. -/
theorem isBalanced_of_beyond {arm row rest : List Placed} {p : Placed}
    (closes : p.token = .sign "\x7d") (h : beyond 1 (arm ++ p :: row) = some rest)
    (long : rest.length = row.length) : IsBalanced (arm.map (·.token)) := by
  cases behind : level? 0 (arm.map (·.token)) with
  | none =>
    obtain ⟨back, -, found⟩ := beyond_of_level?_eq_none (p :: row) behind
    rw [found, Option.some.injEq] at h
    simp only [← h, List.length_append, List.length_cons] at long
    omega
  | some m =>
    rw [beyond_of_level? behind, beyond_closing closes] at h
    cases m with
    | zero => exact behind
    | succ m => exact absurd (length_of_beyond h) (by omega)

/-- The tokens name neither the mode nor what evaluates texts. -/
def IsUnmentioned (t : Token) : Prop := t.named? ≠ some modeName ∧ t.named? ≠ some "eval"

instance (t : Token) : Decidable (IsUnmentioned t) := inferInstanceAs (Decidable (_ ∧ _))

theorem forked_of_unmentioned {row : List Placed} (h : ∀ p ∈ row, IsUnmentioned p.token)
    (previous : Token) : Forked previous row := by
  induction row generalizing previous with
  | nil => trivial
  | cons p row ih =>
    obtain ⟨first, others⟩ := List.forall_mem_cons.1 h
    refine ⟨first.2, fun mode => absurd ?_ first.1, ih others _⟩
    rw [mode]
    rfl

open Lexer (IsTerminated tokensOf depthsBehind)

/-- The braces of an expression are closed in it. -/
theorem isBalanced_tokensOf {limit : Nat} {text : String} {e : Expr} {r : Reading}
    (terminated : IsTerminated text) (read : readExpression limit text = .ok (e, r))
    (unmentioned : ∀ t ∈ tokensOf text, IsUnmentioned t) : IsBalanced (tokensOf text) := by
  let place (t : Token) : Placed := ⟨t, Pos.start⟩
  let arm : List Placed := (tokensOf text ++ [Token.sign ")"]).map place
  let r' : Reading := ⟨arm ++ [place (.sign "\x7d"), place .ended], [], [], []⟩
  have tokens (ts : List Token) : (ts.map place).map (·.token) = ts := by
    simp [place, Function.comp_def]
  obtain ⟨e', s, expression, -, rest, -⟩ := @Parser.exists_reading _ _ _ _ _
    [.sign "\x7d", .ended] _ terminated read (.refl rfl) (Nat.le_refl _) r'
    (by simp [r', arm, place, Function.comp_def]) (by simp [r'])
  have free : ∀ p ∈ r'.rest, IsUnmentioned p.token := by
    have closing : ∀ t ∈ [Token.sign ")", .sign "\x7d", .ended], IsUnmentioned t := by decide
    intro p hp
    have ht := List.mem_map_of_mem (f := (·.token)) hp
    simp only [r', arm, List.map_append, tokens, List.append_assoc] at ht
    rcases List.mem_append.1 ht with ht | ht
    · exact unmentioned _ ht
    · exact closing _ ht
  have here : Parser.Within .ended ⟨fun n => beyond (n + 1) r'.rest, 0⟩ r' :=
    ⟨⟨by simp [r'], by simp [r', place, IsSteady]⟩, forked_of_unmentioned free _, fun n => rfl,
      by simp [r'], Nat.zero_le _⟩
  -- The brace behind the expression closes the one that is open in front of it.
  obtain ⟨-, behind⟩ := (Parser.forking _).expression here e' s expression
  have closed := behind.rows 0
  obtain ⟨a, b, c, eq, ha, hb⟩ : ∃ a b c, s.rest = [a, b, c] ∧ a.token = .sign ")" ∧
      b.token = .sign "\x7d" := by
    obtain ⟨a, _, eq, ha, rest⟩ := List.map_eq_cons_iff.1 rest
    obtain ⟨b, _, rfl, hb, rest⟩ := List.map_eq_cons_iff.1 rest
    obtain ⟨c, rfl, -⟩ := List.map_eq_singleton_iff.1 rest
    exact ⟨a, b, c, eq, ha, hb⟩
  rw [eq, beyond_other (by rw [ha]; decide), beyond_closing hb, beyond_zero] at closed
  have balanced := isBalanced_of_beyond rfl closed.symm rfl
  rw [tokens, IsBalanced, level?_append] at balanced
  have plain (k : Nat) : level? k [Token.sign ")"] = some k := rfl
  rw [IsBalanced]
  simpa [plain] using balanced

namespace Lexer

/-! ## Expressions in back-tick strings -/

/-- Where a string is interrupted by an expression, the brace of the expression comes next. -/
def Quote.Opens : Quote → Prop
  | .opened _ _ r => r.head? = some '\x7b'
  | _ => True

theorem Quote.Opens.cons {quote : Quote} (h : quote.Opens) (c : Char) : (quote.cons c).Opens := by
  cases quote <;> exact h

theorem opens_quoted (closing : Char) (continues : Bool) (start p : Pos) (margin : Nat)
    (cs : List Char) : (quoted closing continues start margin p cs).Opens := by
  fun_induction quoted closing continues start margin p cs with
  | case1 | case3 | case4 | case5 | case7 | case9 | case11 | case12 => trivial
  | case2 _ _ _ ih | case8 _ _ _ _ _ _ _ _ _ _ ih | case10 _ _ _ _ _ _ _ _ _ ih
  | case15 _ _ _ _ _ _ _ _ _ ih => exact ih.cons _
  | case6 _ _ _ _ _ ih | case13 _ _ _ _ _ _ _ _ ih | case14 _ _ _ _ _ _ _ _ _ ih => exact ih

theorem opens_verbatim (start p : Pos) (cs : List Char) : (verbatim start p cs).Opens := by
  fun_induction verbatim start p cs with
  | case1 | case3 => trivial
  | case4 => rfl
  | case2 _ _ ih | case5 _ _ ih | case6 _ _ _ _ _ _ _ ih => exact ih.cons _

theorem opens_raw (count : Nat) (start p : Pos) (cs : List Char) : (raw count start p cs).Opens := by
  fun_induction raw count start p cs with
  | case1 | case2 => trivial
  | case3 _ _ _ _ ih => exact ih.cons _

theorem opens_ofQuote {start : Pos} {quote : Quote} {text : String} (h : quote.Opens)
    (opening : (ofQuote start quote).1.token = .opening text) :
    (ofQuote start quote).2.2.head? = some '\x7b' := by
  cases quote
  · cases opening
  · exact h
  · cases opening

theorem tokenOfWord_ne_opening (w text : String) : tokenOfWord w ≠ .opening text := by
  unfold tokenOfWord
  repeat' split
  all_goals simp

theorem opens_token {operand : Bool} {p : Pos} {c : Char} {r : List Char} {text : String}
    (opening : (token operand p c r).1.token = .opening text) :
    (token operand p c r).2.2.head? = some '\x7b' := by
  revert opening
  have plain (negative : Bool) (cs : List Char) : (number negative cs).1 ≠ .opening text := by
    intro opening
    have plain := (rest_number negative cs).2.1
    rw [opening] at plain
    cases plain
  simp only [token]
  split
  · exact opens_ofQuote (opens_quoted _ _ _ _ _ _)
  split
  · exact opens_ofQuote (opens_verbatim _ _ _)
  split
  · split
    · simp
    · split <;> simp
  split
  · exact fun opening => absurd opening (tokenOfWord_ne_opening _ _)
  split
  · exact fun opening => absurd opening (plain _ _)
  split
  · exact fun opening => absurd opening (plain _ _)
  split
  · exact opens_ofQuote (opens_raw _ _ _ _)
  split
  · simp
  split
  · split <;> simp
  · simp

/-! ## Readers at different depths -/

/--
The braces that are open to a reader at the depths `D`, behind those of `d :: ds`, are those that are
open to a reader outside of back-tick strings at the depths `S`: `k` of them.
-/
def Lifted (d : Nat) (ds : List Nat) (k : Nat) (S D : List Nat) : Prop :=
  ∃ a, k = a + S.sum ∧ D = S ++ (d + a) :: ds

variable {d k m : Nat} {ds D : List Nat} {s : State} {cs : List Char} {t : Token}

/-- A token that closes no brace from before means the same to both readers. -/
theorem Lifted.behind (h : Lifted d ds k s.depths D) (open_ : d ≠ 0)
    (begins : s.depths.head? = some 0 → t = .sign "\x7b") (level : levelBehind? k t = some m)
    (p : Pos) : Lifted d ds m (s.behind t p).depths (depthsBehind D t) ∧
      State.behind { s with depths := D } t p =
        { s.behind t p with depths := depthsBehind D t } := by
  obtain ⟨a, rfl, rfl⟩ := h
  obtain ⟨pos, operand, S, inText⟩ := s
  dsimp only at begins level ⊢
  rcases levelBehind?_cases (a + S.sum) t with ⟨rfl | rfl, eq⟩ | ⟨rfl, eq⟩ | ⟨other, eq⟩
  · rw [eq, Option.some.injEq] at level
    subst level
    cases S with
    | nil => exact ⟨⟨a + 1, by simp [State.behind], rfl⟩, rfl⟩
    | cons e S => exact ⟨⟨a, by simp [State.behind]; omega, rfl⟩, rfl⟩
  · rw [eq, Option.some.injEq] at level
    subst level
    cases S with
    | nil => exact ⟨⟨a + 1, by simp [State.behind], rfl⟩, rfl⟩
    | cons e S => exact ⟨⟨a, by simp [State.behind]; omega, rfl⟩, rfl⟩
  · rw [eq] at level
    split at level
    · cases level
    · rename_i positive
      rw [Option.some.injEq] at level
      subst level
      cases S with
      | nil =>
        -- The outer brace stays open, so that no back-tick string goes on.
        have positive : a ≠ 0 := by simpa using positive
        have still : ¬d + a ≤ 1 := by omega
        refine ⟨⟨a - 1, by simp [State.behind], ?_⟩, ?_⟩
        · simp [depthsBehind, State.behind, still]
          omega
        · simp [depthsBehind, State.behind, still, Token.endsOperand]
      | cons e S =>
        have filled : e ≠ 0 := by
          rintro rfl
          exact absurd (begins rfl) (by decide)
        by_cases last : e ≤ 1
        · refine ⟨⟨a, ?_, by simp [depthsBehind, State.behind, last]⟩,
            by simp [depthsBehind, State.behind, last]⟩
          simp [State.behind, last]
          omega
        · refine ⟨⟨a, ?_, by simp [depthsBehind, State.behind, last]⟩,
            by simp [depthsBehind, State.behind, last]⟩
          simp [State.behind, last]
          omega
  · rw [eq, Option.some.injEq] at level
    subst level
    cases t with
    | opening text => exact ⟨⟨a, by simp [State.behind], rfl⟩, rfl⟩
    | sign sign =>
      have plain : isBrace (.sign sign) = false := by simpa [isBrace, and_assoc] using other
      simp only [List.mem_cons, Token.sign.injEq, List.not_mem_nil, or_false, not_or] at other
      have same (D : List Nat) : State.behind ⟨pos, operand, D, inText⟩ (.sign sign) p =
          ⟨p, (Token.sign sign).endsOperand, D, false⟩ := by
        unfold State.behind
        split <;> simp_all
      rw [same, same, depthsBehind_of_isBrace_eq_false plain]
      exact ⟨⟨a, rfl, rfl⟩, rfl⟩
    | _ => exact ⟨⟨a, rfl, rfl⟩, rfl⟩

/-! ### Beginnings of expressions -/

/--
No brace is open in the expression of a back-tick string only where the expression begins, and there
a brace comes next.
-/
structure Begun (s : State) (cs : List Char) : Prop where
  inner : 0 ∉ s.depths.tail
  first : s.depths.head? = some 0 → s.inText = false ∧ cs.head? = some '\x7b'

theorem begun_of_filled (filled : 0 ∉ s.depths) : Begun s cs where
  inner zero := filled (List.mem_of_mem_tail zero)
  first head := absurd (List.mem_of_mem_head? head) filled

namespace Begun

theorem filled (h : Begun s cs) (passed : s.depths.head? ≠ some 0) : 0 ∉ s.depths := by
  have inner := h.inner
  cases depths : s.depths with
  | nil => exact List.not_mem_nil
  | cons e S =>
    rw [depths] at inner passed
    rw [List.mem_cons, not_or]
    exact ⟨fun zero => passed (congrArg some zero.symm), inner⟩

theorem behind {rest : List Char} (h : Begun s cs)
    (begins : s.depths.head? = some 0 → t = .sign "\x7b")
    (opens : ∀ text, t = .opening text → rest.head? = some '\x7b') (p : Pos) :
    Begun (s.behind t p) rest := by
  have inner := h.inner
  have filled (other : t ≠ .sign "\x7b") : 0 ∉ s.depths := h.filled fun zero => other (begins zero)
  unfold State.behind
  split
  case h_1 e S depths => exact begun_of_filled (by simpa [depths] using inner)
  case h_2 e S depths => exact begun_of_filled (by simpa [depths] using inner)
  case h_3 e S depths =>
    have inner : 0 ∉ S := by simpa [depths] using inner
    split
    · exact begun_of_filled inner
    · refine begun_of_filled ?_
      simp only [List.mem_cons, not_or]
      exact ⟨by omega, inner⟩
  case h_4 => exact ⟨filled nofun, fun _ => ⟨rfl, opens _ rfl⟩⟩
  case h_5 _ other _ _ =>
    refine begun_of_filled ?_
    cases depths : s.depths with
    | nil => exact List.not_mem_nil
    | cons e S => exact depths ▸ filled fun brace => other e S brace depths

theorem text {t : Placed} {q : Pos} {r : List Char} (h : Begun s cs) (inText : s.inText = true)
    (read : ofQuote s.pos (verbatim s.pos s.pos cs) = (t, q, r)) :
    s.depths.head? ≠ some 0 ∧ Begun (s.behind t.token q) r := by
  have passed : s.depths.head? ≠ some 0 := by
    intro zero
    exact absurd ((h.first zero).1.symm.trans inText) (by decide)
  refine ⟨passed, h.behind (fun zero => absurd zero passed) (fun text opening => ?_) q⟩
  have opens := @opens_ofQuote s.pos _ text (opens_verbatim s.pos s.pos cs)
  rw [read] at opens
  exact opens opening

theorem token {t : Placed} {p q : Pos} {c : Char} {r r' : List Char} (h : Begun s cs)
    (skipped : skipGap .space s.pos cs = (p, c :: r))
    (read : token s.operand p c r = (t, q, r')) :
    (s.depths.head? = some 0 → t.token = .sign "\x7b") ∧ Begun (s.behind t.token q) r' := by
  have begins (zero : s.depths.head? = some 0) : t.token = .sign "\x7b" := by
    have brace := (h.first zero).2
    cases cs with
    | nil => cases brace
    | cons d more =>
      obtain rfl : d = '\x7b' := Option.some.inj brace
      rw [skipGap_visible (by decide) (by decide), Prod.mk.injEq, List.cons.injEq] at skipped
      obtain ⟨-, rfl, -⟩ := skipped
      exact (congrArg (fun found => found.1.token) read).symm
  refine ⟨begins, h.behind begins (fun text opening => ?_) q⟩
  have opens := @opens_token s.operand p c r text
  rw [read] at opens
  exact opens opening

end Begun

/-- Inside of braces a text has the tokens that it has outside, if each brace is closed in it. -/
theorem scan_lifted {ts : List Token} (begun : Begun s cs) (lifted : Lifted d ds k s.depths D)
    (open_ : d ≠ 0) (row : (scan s cs).map (·.token) = ts ++ [.ended])
    (level : level? k ts = some m) :
    scan { s with depths := D } cs = scan s cs ∧
      Lifted d ds m (ts.foldl depthsBehind s.depths) (ts.foldl depthsBehind D) := by
  fun_induction scan s cs generalizing k ts D with
  | case1 s cs inText t q r' read short ih =>
    obtain ⟨us, rfl, others⟩ := exists_cons_of_alone row
    obtain ⟨l, first, behind⟩ := Option.bind_eq_some_iff.1 level
    obtain ⟨passed, begun'⟩ := begun.text inText read
    obtain ⟨lifted', state⟩ := lifted.behind open_ (fun zero => absurd zero passed) first q
    obtain ⟨same, lifted''⟩ := ih begun' lifted' others behind
    rw [depths_behind] at lifted''
    refine ⟨?_, lifted''⟩
    rw [← same, ← state]
    exact scan_text inText read short
  | case2 s cs inText t p r' read long =>
    have other := ofQuote_ne_ended s.pos (verbatim s.pos s.pos cs)
    rw [read] at other
    have last := congrArg List.getLast? row
    simp [other] at last
  | case3 s cs outside p skipped =>
    obtain rfl : ts = [] := by simpa using row
    obtain rfl : k = m := by simpa [level?] using level
    refine ⟨?_, lifted⟩
    rw [scan, if_neg outside, skipped]
  | case4 s cs outside p c r skipped t q r' read reason bad =>
    have last := congrArg List.getLast? row
    simp [bad] at last
  | case5 s cs outside p c r skipped t q r' read short good ih =>
    obtain ⟨us, rfl, others⟩ := exists_cons_of_alone row
    obtain ⟨l, first, behind⟩ := Option.bind_eq_some_iff.1 level
    obtain ⟨begins, begun'⟩ := begun.token skipped read
    obtain ⟨lifted', state⟩ := lifted.behind open_ begins first q
    obtain ⟨same, lifted''⟩ := ih begun' lifted' others behind
    rw [depths_behind] at lifted''
    refine ⟨?_, lifted''⟩
    rw [← same, ← state, scan, if_neg outside, skipped]
    simp only [read]
    rw [if_pos short]
  | case6 s cs outside p c r skipped t q r' read long good =>
    have other := (rest_token s.operand p c r).2
    rw [read] at other
    have last := congrArg List.getLast? row
    simp [other] at last

/-- What is read outside of strings is read wherever no expression of a string begins. -/
theorem scan_inside {ts : List Token} {cs : List Char} {s : State} (outside : Outside s)
    (row : (scan s cs).map (·.token) = ts ++ [.ended]) (balanced : IsBalanced ts)
    (closed : ts.foldl depthsBehind [] = []) (settled : Settled D) :
    scan { s with depths := D } cs = scan s cs ∧ ts.foldl depthsBehind D = D := by
  cases D with
  | nil =>
    rw [← outside.depths]
    exact ⟨rfl, outside.depths.symm ▸ closed⟩
  | cons d ds =>
    have open_ : d ≠ 0 := by simpa [Settled] using settled
    have begun : Begun s cs := begun_of_filled (by simp [outside.depths])
    have lifted : Lifted d ds 0 s.depths (d :: ds) := ⟨0, by simp [outside.depths]⟩
    obtain ⟨same, a, none, depths⟩ := scan_lifted begun lifted open_ row balanced
    rw [outside.depths, closed] at none depths
    obtain rfl : a = 0 := by simpa using none.symm
    exact ⟨same, depths⟩

end Lexer

end Stencil.Script
