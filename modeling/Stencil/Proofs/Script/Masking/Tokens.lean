import Stencil.Proofs.Script.Masking.Strings

/-!
# Tokens of texts with a masked name

Outside of a masked conditional a text and its masked twin have the same tokens, but for what is in
strings.  Numbers, words and signs end with the line at the latest, and so in front of what is masked.
-/

namespace Stencil.Script.Lexer

/-- Tokens that are the same, but for the text of a string or the reason of a fault. -/
def Resembles : Token → Token → Prop
  | .text _, .text _ | .opening _, .opening _ | .bad _, .bad _ => True
  | t, t' => t = t'

namespace Resembles

variable {t t' : Token}

theorem refl (t : Token) : Resembles t t := by
  cases t <;> simp [Resembles]

theorem behind (h : Resembles t t') (s : State) (p : Pos) : s.behind t p = s.behind t' p := by
  cases t <;> cases t' <;> simp_all [Resembles, State.behind, Token.endsOperand]

theorem isBad (h : Resembles t t') : (∀ reason, t ≠ .bad reason) ↔ ∀ reason, t' ≠ .bad reason := by
  cases t <;> cases t' <;> simp_all [Resembles]

end Resembles

namespace Masked

variable {G : List Char → Prop} {cs cs' r r' : List Char} {c : Char}

/-! ## Runs of characters -/

theorem takeWhile {f : Char → Bool} (h : Masked G false cs cs') (stop : f '\n' = false) :
    cs.takeWhile f = cs'.takeWhile f ∧ Masked G false (cs.dropWhile f) (cs'.dropWhile f) := by
  induction cs generalizing cs' with
  | nil =>
    obtain rfl := h.eq_nil
    exact ⟨rfl, h⟩
  | cons c r ih =>
    obtain ⟨r', rfl, behind⟩ := h.cons_inv
    by_cases taken : f c = true
    · have other : c ≠ '\n' := by
        rintro rfl
        simp [stop] at taken
      simp only [other, decide_false] at behind
      simpa [List.takeWhile_cons, List.dropWhile_cons, taken] using ih behind
    · simpa [List.takeWhile_cons, List.dropWhile_cons, taken] using h

theorem isPrefixOf {w : List Char} (h : Masked G false cs cs') (line : '\n' ∉ w) :
    w.isPrefixOf cs = w.isPrefixOf cs' := by
  induction w generalizing cs cs' with
  | nil => simp
  | cons d w ih =>
    rw [List.mem_cons, not_or] at line
    cases cs with
    | nil =>
      obtain rfl := h.eq_nil
      rfl
    | cons c r =>
      obtain ⟨r', rfl, behind⟩ := h.cons_inv
      by_cases same : d = c
      · subst same
        simp only [Ne.symm line.1, decide_false] at behind
        simp [List.isPrefixOf, ih behind line.2]
      · have other : (d == c) = false := by simpa using same
        simp [List.isPrefixOf, other]

/-! ## Numbers -/

/-- What is read of a text and of its masked twin in one line. -/
def Alike {α : Type} (G : List Char → Prop) (a b : α × List Char) : Prop :=
  a.1 = b.1 ∧ Masked G false a.2 b.2

theorem digits (h : Masked G false cs cs') (valid : Char → Bool) (stop : valid '\n' = false) :
    Alike G (digits valid cs) (digits valid cs') := by
  have run := h.takeWhile (f := fun c => valid c || c = '_') (by simp [stop])
  exact ⟨by rw [Lexer.digits, Lexer.digits, run.1], run.2⟩

theorem fractionPart (h : Masked G false cs cs') :
    Alike G (fractionPart cs) (fractionPart cs') := by
  match cs with
  | [] =>
    obtain rfl := h.eq_nil
    exact ⟨rfl, h⟩
  | [c] =>
    obtain ⟨_, rfl, behind⟩ := h.cons_inv
    obtain rfl := behind.eq_nil
    have none : Lexer.fractionPart [c] = ([], [c]) := by
      simp [Lexer.fractionPart, fraction]
    rw [none]
    exact ⟨rfl, h⟩
  | c :: d :: r =>
    obtain ⟨_, rfl, behind⟩ := h.cons_inv
    by_cases dot : c = '.'
    · subst dot
      obtain ⟨r', rfl, -⟩ := behind.cons_inv
      have run := behind.digits Char.isDigit (by decide)
      simp only [Lexer.fractionPart, fraction]
      by_cases digit : d.isDigit = true
      · simp only [digit, if_true]
        exact ⟨congrArg ('.' :: ·) run.1, run.2⟩
      · simp only [digit, Bool.false_eq_true, if_false]
        by_cases other : (decide (d = '_') || decide (d = '.') || isNameStart d) = true
        · simp only [other, if_true]
          exact ⟨rfl, h⟩
        · simp only [other, Bool.false_eq_true, if_false]
          exact ⟨rfl, behind⟩
    · have none (text : List Char) : Lexer.fractionPart (c :: text) = ([], c :: text) := by
        simp [Lexer.fractionPart, fraction, dot]
      rw [none, none]
      exact ⟨rfl, h⟩

theorem exponentPart (h : Masked G false cs cs') :
    Alike G (exponentPart cs) (exponentPart cs') := by
  match cs with
  | [] =>
    obtain rfl := h.eq_nil
    exact ⟨rfl, h⟩
  | [c] =>
    obtain ⟨_, rfl, behind⟩ := h.cons_inv
    obtain rfl := behind.eq_nil
    have none : Lexer.exponentPart [c] = ([], [c]) := by
      simp [Lexer.exponentPart, exponent]
    rw [none]
    exact ⟨rfl, h⟩
  | c :: d :: r =>
    obtain ⟨_, rfl, behind⟩ := h.cons_inv
    by_cases letter : c = 'e'
    · subst letter
      obtain ⟨r', rfl, further⟩ := behind.cons_inv
      simp only [Lexer.exponentPart, exponent]
      by_cases digit : d.isDigit = true
      · have run := behind.digits Char.isDigit (by decide)
        simp only [digit, if_true, Option.getD_some]
        exact ⟨congrArg ('e' :: ·) run.1, run.2⟩
      · simp only [digit, Bool.false_eq_true, if_false]
        by_cases sign : (decide (d = '+') || decide (d = '-')) = true
        · have other : d ≠ '\n' := by
            rintro rfl
            exact absurd sign (by decide)
          simp only [other, decide_false] at further
          have run := further.digits Char.isDigit (by decide)
          simp only [sign, if_true, Option.getD_some]
          exact ⟨congrArg ('e' :: d :: ·) run.1, run.2⟩
        · simp only [sign, Bool.false_eq_true, if_false, Option.getD_none]
          exact ⟨rfl, h⟩
    · have none (text : List Char) : Lexer.exponentPart (c :: text) = ([], c :: text) := by
        simp [Lexer.exponentPart, exponent, letter]
      rw [none, none]
      exact ⟨rfl, h⟩

/-- Tokens that resemble each other, with what is behind them. -/
def Resemble (G : List Char → Prop) (a b : Token × List Char) : Prop :=
  Resembles a.1 b.1 ∧ Masked G false a.2 b.2

theorem decimal (h : Masked G false cs cs') (negative : Bool) :
    Resemble G (decimal negative cs) (decimal negative cs') := by
  obtain ⟨whole, behind⟩ := h.digits Char.isDigit (by decide)
  obtain ⟨part, behind⟩ := behind.fractionPart
  obtain ⟨power, behind⟩ := behind.exponentPart
  simp only [Lexer.decimal, ← whole, ← part, ← power]
  split
  · exact ⟨.refl _, behind⟩
  · split
    · exact ⟨.refl _, behind⟩
    · exact ⟨trivial, behind⟩

theorem number (h : Masked G false cs cs') (negative : Bool) :
    Resemble G (number negative cs) (number negative cs') := by
  have decimal := h.decimal negative
  match cs with
  | [] =>
    obtain rfl := h.eq_nil
    exact decimal
  | [c] =>
    obtain ⟨_, rfl, behind⟩ := h.cons_inv
    obtain rfl := behind.eq_nil
    simpa [Lexer.number] using decimal
  | c :: d :: r =>
    obtain ⟨_, rfl, behind⟩ := h.cons_inv
    by_cases zero : c = '0'
    · subst zero
      obtain ⟨r', rfl, further⟩ := behind.cons_inv
      cases radix : radix? d with
      | none => simpa [Lexer.number, radix] using decimal
      | some base =>
        have other : d ≠ '\n' := by
          rintro rfl
          cases radix
        simp only [other, decide_false] at further
        obtain ⟨run, behind⟩ := further.digits (isRadixDigit base)
          (isRadixDigit_newline base)
        simp only [Lexer.number, radix, ← run]
        split
        · exact ⟨trivial, behind⟩
        · exact ⟨.refl _, behind⟩
    · have other (text : List Char) : Lexer.number negative (c :: text) =
          Lexer.decimal negative (c :: text) := by
        simp [Lexer.number, zero]
      rw [other, other]
      exact decimal

/-! ## Signs -/

theorem firstSign (h : Masked G false cs cs') {known : List String}
    (line : ∀ s ∈ known, '\n' ∉ s.toList) :
    firstSign cs known = none ∧ firstSign cs' known = none ∨
      ∃ sign r r', firstSign cs known = some (sign, r) ∧ firstSign cs' known = some (sign, r') ∧
        Masked G false r r' := by
  induction known with
  | nil => exact .inl ⟨rfl, rfl⟩
  | cons s more ih =>
    obtain ⟨first, others⟩ := List.forall_mem_cons.1 line
    rw [Lexer.firstSign, Lexer.firstSign, ← h.isPrefixOf first]
    split
    · rename_i found
      obtain ⟨rest, rfl⟩ := List.isPrefixOf_iff_prefix.1 found
      have taken : (s.toList ++ rest).take s.length = s.toList := by
        rw [← String.length_toList, List.take_left]
      exact .inr ⟨s, _, _, rfl, rfl, (h.take_eq (.inl (by rwa [taken]))).2⟩
    · exact ih others

end Masked

/-! ## Tokens -/

theorem exists_two {text : List Char} (long : 2 ≤ text.length) :
    ∃ x y more, text = x :: y :: more := by
  match text with
  | x :: y :: more => exact ⟨x, y, more, rfl⟩

/-- Tokens that resemble each other, with the places and the texts behind them. -/
structure Taken (G : List Char → Prop) (a b : Placed × Pos × List Char) : Prop where
  token : Resembles a.1.token b.1.token
  pos : a.2.1 = b.2.1
  behind : Masked G false a.2.2 b.2.2

theorem Quote.Like.taken {G : List Char → Prop} {quote quote' : Quote} (h : quote.Like G quote')
    (start : Pos) : Taken G (ofQuote start quote) (ofQuote start quote') := by
  cases h with
  | closed p same h => exact ⟨trivial, rfl, h⟩
  | opened text text' p h => exact ⟨trivial, rfl, h⟩
  | broken reason reason' p => exact ⟨trivial, rfl, .nil⟩

theorem Masked.token {G : List Char → Prop} {r r' : List Char} {c : Char}
    (h : Masked G false r r') (line : c ≠ '\n') (operand : Bool) (p : Pos) :
    Taken G (token operand p c r) (token operand p c r') := by
  have whole : Masked G false (c :: r) (c :: r') := .char c (by simpa [line] using h)
  have head := h.head?_eq
  have simple {t t' : Token} {rest rest' : List Char} (token : Resembles t t')
      (behind : Masked G false rest rest') : Taken G (⟨t, p⟩, advance p (c :: r) rest, rest)
        (⟨t', p⟩, advance p (c :: r') rest', rest') :=
    ⟨token, by rw [advance, advance, behind.length_eq, whole.length_eq], behind⟩
  unfold Lexer.token
  dsimp only
  split
  · exact (h.quoted (by decide) true p 0 p.right).taken p
  split
  · obtain ⟨pos, behind⟩ := h.skipFirstBreak p.right
    rw [← pos]
    exact (behind.verbatim p _).taken p
  split
  · rw [← head]
    split
    · exact simple trivial h
    · have mark : '\'' ∈ ['"', '\''] := by decide
      have like := h.quoted mark false p 0 p.right
      generalize Lexer.quoted '\'' false p 0 p.right r = quote at like ⊢
      generalize Lexer.quoted '\'' false p 0 p.right r' = quote' at like ⊢
      cases like with
      | @closed text text' q _ _ same behind =>
        rcases same with rfl | ⟨long, long'⟩
        · rcases text with _ | ⟨x, _ | ⟨y, more⟩⟩
          · exact simple (.refl (.bad _)) h
          · exact ⟨.refl (.char x), rfl, behind⟩
          · exact simple (.refl (.bad _)) h
        · obtain ⟨x, y, more, rfl⟩ := exists_two long
          obtain ⟨x', y', more', rfl⟩ := exists_two long'
          exact simple (.refl (.bad _)) h
      | opened text text' q behind => exact simple trivial h
      | broken reason reason' q => exact ⟨trivial, rfl, .nil⟩
  split
  · obtain ⟨word, behind⟩ := whole.takeWhile (f := isNamePart) (by decide)
    rw [← word]
    exact simple (.refl _) behind
  split
  · obtain ⟨token, behind⟩ := whole.number false
    exact simple token behind
  rw [← head]
  split
  · obtain ⟨token, behind⟩ := h.number true
    exact simple token behind
  obtain ⟨marks, behind⟩ := h.takeWhile (f := (· = '#')) (by decide)
  rw [← behind.head?_eq, ← marks]
  split
  · rename_i hash
    rw [Bool.and_eq_true, decide_eq_true_eq, decide_eq_true_eq] at hash
    have dropped := h.take_eq (.inl (newline_not_mem_marks hash.2))
    exact (dropped.2.raw _ p _).taken p
  rw [← whole.isPrefixOf (w := ['!', 'i', 'n']) (by decide)]
  have excluded (word : ['!', 'i', 'n'].isPrefixOf (c :: r) = true) :
      Masked G false ((c :: r).drop 3) ((c :: r').drop 3) := by
    obtain ⟨rest, eq⟩ := List.isPrefixOf_iff_prefix.1 word
    refine (whole.take_eq (.inl ?_)).2
    rw [← eq]
    show '\n' ∉ ['!', 'i', 'n']
    decide
  have same : (['!', 'i', 'n'].isPrefixOf (c :: r) &&
        !(((c :: r).drop 3).head?.map isNamePart).getD false) =
      (['!', 'i', 'n'].isPrefixOf (c :: r) &&
        !(((c :: r').drop 3).head?.map isNamePart).getD false) := by
    by_cases word : ['!', 'i', 'n'].isPrefixOf (c :: r) = true
    · rw [(excluded word).head?_eq]
    · simp [word]
  rw [← same]
  split
  · rename_i word
    exact simple (.refl _) (excluded (Bool.and_eq_true_iff.1 word).1)
  · rcases whole.firstSign (show ∀ s ∈ signs, '\n' ∉ s.toList by decide) with
      ⟨none, none'⟩ | ⟨sign, rest, rest', found, found', behind⟩
    · rw [none, none']
      exact simple trivial h
    · rw [found, found']
      dsimp only
      split
      · exact simple trivial behind
      · exact simple (.refl _) behind

end Stencil.Script.Lexer
