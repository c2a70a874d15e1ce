import Stencil.Proofs.Double.Writing
import Stencil.Proofs.Script.Lexing

/-!
# Numbers in scripts

A number ends where neither a part of a name nor a point follows.  A number of digits alone is an
integer if it has at most 64 bits with its sign; one with a fraction or an exponent is the double
that its text reads as.  A minus belongs to the number unless an operand stands in front of it.
-/

namespace Stencil.Script.Lexer

open Decimal (IsDigits HasParts IsParted minus readUnsigned?)

variable {ds whole part power rest : List Char}

/-- Digits stop here. -/
def StopsDigits (rest : List Char) : Prop :=
  ∀ c, rest.head? = some c → c.isDigit = false ∧ c ≠ '_'

/-- A number ends here. -/
def EndsNumber (rest : List Char) : Prop :=
  ∀ c, rest.head? = some c → isNamePart c = false ∧ c ≠ '.'

theorem ne_of_isDigit {c d : Char} (h : c.isDigit = true) (hd : d.isDigit = false) : c ≠ d := by
  rintro rfl
  simp [h] at hd

theorem stopsDigits_cons {c : Char} (digit : c.isDigit = false) (other : c ≠ '_') :
    StopsDigits (c :: rest) := by
  intro d hd
  obtain rfl : c = d := by simpa using hd
  exact ⟨digit, other⟩

theorem EndsNumber.stopsDigits (h : EndsNumber rest) : StopsDigits rest := by
  intro c hc
  have ends := (h c hc).1
  simp only [isNamePart, Bool.or_eq_false_iff, Char.isAlphanum, decide_eq_false_iff_not] at ends
  exact ⟨ends.1.2, ends.2⟩

theorem digits_append (h : IsDigits ds) (stops : StopsDigits rest) :
    digits Char.isDigit (ds ++ rest) = (ds, rest) := by
  have valid : ∀ c ∈ ds, (c.isDigit || decide (c = '_')) = true := by
    intro c hc
    simp [h.2 c hc]
  have same : ds.filter (· ≠ '_') = ds := by
    refine List.filter_eq_self.2 fun c hc => ?_
    simpa using ne_of_isDigit (h.2 c hc) (by decide)
  have tail : rest.takeWhile (fun c => c.isDigit || decide (c = '_')) = [] ∧
      rest.dropWhile (fun c => c.isDigit || decide (c = '_')) = rest := by
    cases rest with
    | nil => exact ⟨rfl, rfl⟩
    | cons c more =>
      obtain ⟨digit, other⟩ := stops c rfl
      simp [digit, other]
  rw [digits, List.takeWhile_append_of_pos valid, List.dropWhile_append_of_pos valid, tail.1,
    tail.2, List.append_nil, same]

theorem fraction_cons (h : IsDigits ds) (stops : StopsDigits rest) :
    fraction ('.' :: (ds ++ rest)) = some (ds, rest) := by
  have all := digits_append h stops
  obtain ⟨d, more, rfl⟩ := List.exists_cons_of_ne_nil h.1
  rw [List.cons_append] at all ⊢
  rw [fraction, if_pos (h.2 d (by simp)), all]

theorem fraction_none (h : rest.head? ≠ some '.') : fraction rest = none := by
  unfold fraction
  split
  · simp at h
  · rfl

theorem exponent_cons (negative : Bool) (h : IsDigits ds) (stops : StopsDigits rest) :
    exponent ('e' :: (minus negative ++ ds ++ rest)) =
      some ('e' :: (minus negative ++ ds), rest) := by
  have all := digits_append h stops
  cases negative with
  | false =>
    obtain ⟨d, more, rfl⟩ := List.exists_cons_of_ne_nil h.1
    change exponent ('e' :: d :: (more ++ rest)) = _
    rw [exponent, if_pos (h.2 d (by simp)), ← List.cons_append, all]
    rfl
  | true =>
    change exponent ('e' :: '-' :: (ds ++ rest)) = _
    rw [exponent, if_neg (by decide), if_pos (by decide), all]
    rfl

theorem exponent_none (h : rest.head? ≠ some 'e') : exponent rest = none := by
  unfold exponent
  split
  · simp at h
  · rfl

theorem radix?_eq_none {c : Char} (h : isNamePart c = false ∨ c.isDigit = true ∨ c = 'e') :
    radix? c = none := by
  have marks : (['x', 'X', 'o', 'O', 'b', 'B'].all fun c =>
      isNamePart c && !c.isDigit && c != 'e') = true := by
    decide
  have other : c ∉ ['x', 'X', 'o', 'O', 'b', 'B'] := by
    intro hc
    have mark := List.all_eq_true.1 marks c hc
    simp only [Bool.and_eq_true, Bool.not_eq_true', bne_iff_ne] at mark
    obtain ⟨⟨name, digit⟩, power⟩ := mark
    simp [name, digit, power] at h
  simp only [List.mem_cons, List.not_mem_nil, or_false, not_or] at other
  simp [radix?, other]

/-- What stands behind the first digit of a number does not make it one of another radix. -/
theorem radix?_behind {d c : Char} {ds : List Char} (parts : HasParts (d :: ds) part power)
    (ends : EndsNumber rest) (h : (ds ++ part ++ power ++ rest).head? = some c) :
    radix? c = none := by
  apply radix?_eq_none
  cases ds with
  | cons d' more =>
    obtain rfl : d' = c := by simpa using h
    exact .inr (.inl (parts.digits.2 d' (by simp)))
  | nil =>
    rcases parts.fraction with rfl | ⟨es, rfl, -⟩
    · rcases parts.exponent with rfl | ⟨negative, es, rfl, -⟩
      · exact .inl (ends c (by simpa using h)).1
      · obtain rfl : 'e' = c := by simpa using h
        exact .inr (.inr rfl)
    · obtain rfl : '.' = c := by simpa using h
      exact .inl (by decide)

theorem exponentPart_append (parts : HasParts whole part power) (ends : EndsNumber rest) :
    exponentPart (power ++ rest) = (power, rest) := by
  rcases parts.exponent with rfl | ⟨negative, ds, rfl, digits⟩
  · rw [List.nil_append, exponentPart, exponent_none]
    · rfl
    · exact fun h => absurd (ends 'e' h).1 (by decide)
  · rw [List.cons_append, exponentPart, exponent_cons negative digits ends.stopsDigits]
    rfl

theorem stopsDigits_power (parts : HasParts whole part power) (ends : EndsNumber rest) :
    StopsDigits (power ++ rest) := by
  rcases parts.exponent with rfl | ⟨negative, ds, rfl, -⟩
  · exact ends.stopsDigits
  · exact stopsDigits_cons (by decide) (by decide)

theorem fractionPart_append (parts : HasParts whole part power) (ends : EndsNumber rest) :
    fractionPart (part ++ (power ++ rest)) = (part, power ++ rest) := by
  have behind := stopsDigits_power parts ends
  rcases parts.fraction with rfl | ⟨ds, rfl, digits⟩
  · rw [List.nil_append, fractionPart, fraction_none]
    intro h
    rcases parts.exponent with rfl | ⟨negative, es, rfl, -⟩
    · exact (ends '.' h).2 rfl
    · simp at h
  · rw [List.cons_append, fractionPart, fraction_cons digits behind]

theorem stopsDigits_part (parts : HasParts whole part power) (ends : EndsNumber rest) :
    StopsDigits (part ++ (power ++ rest)) := by
  have behind := stopsDigits_power parts ends
  rcases parts.fraction with rfl | ⟨ds, rfl, -⟩
  · exact behind
  · exact stopsDigits_cons (by decide) (by decide)

theorem number_append (negative : Bool) (parts : HasParts whole part power)
    (ends : EndsNumber rest) :
    number negative (whole ++ part ++ power ++ rest) =
      decimal negative (whole ++ part ++ power ++ rest) := by
  obtain ⟨d, ds, rfl⟩ := List.exists_cons_of_ne_nil parts.digits.1
  unfold number
  split
  · rename_i c r heq
    have behind : ds ++ part ++ power ++ rest = c :: r := (List.cons.inj heq).2
    rw [radix?_behind parts ends (by rw [behind]; rfl), heq]
  · rfl

/-- A number with a fraction or an exponent is the double that its text reads as. -/
theorem number_float (negative : Bool) {x : Float} (parted : IsParted ds) (ends : EndsNumber rest)
    (read : readUnsigned? ds = some x) :
    number negative (ds ++ rest) = (.float (if negative then -x else x), rest) := by
  obtain ⟨whole, part, power, parts, marked, rfl⟩ := parted
  have text : whole ++ part ++ power ++ rest = whole ++ (part ++ (power ++ rest)) := by simp
  have no_integer : (part.isEmpty && power.isEmpty) = false := by
    cases part <;> cases power <;> simp_all
  rw [number_append negative parts ends, text, decimal,
    digits_append parts.digits (stopsDigits_part parts ends)]
  simp only [fractionPart_append parts ends, exponentPart_append parts ends, no_integer,
    Bool.false_and, Bool.false_eq_true, if_false, read]

/-- Digits alone are an integer. -/
theorem number_int (negative : Bool) {n : Nat} (fits : fitsInt (signed negative n) = true)
    (ends : EndsNumber rest) :
    number negative (Nat.toDigits 10 n ++ rest) = (.int (signed negative n), rest) := by
  have parts : HasParts (Nat.toDigits 10 n) [] [] :=
    ⟨Decimal.isDigits_toDigits n, .inl rfl, .inl rfl⟩
  have same := number_append negative parts ends
  have behind_part := fractionPart_append parts ends
  have behind_power := exponentPart_append parts ends
  simp only [List.append_nil, List.nil_append] at same behind_part behind_power
  rw [same, decimal, digits_append parts.digits ends.stopsDigits]
  simp only [behind_part, behind_power, Decimal.natOfDigits_toDigits, List.isEmpty_nil,
    Bool.true_and, fits, if_true]

/-! ## Tokens -/

theorem isBlank_eq_false_of_isDigit {c : Char} (h : c.isDigit = true) :
    Text.isBlank c = false := by
  have := Lexes.toNat_of_isDigit h
  simp only [Text.isBlank, Bool.or_eq_false_iff, Bool.and_eq_false_iff, decide_eq_false_iff_not,
    beq_eq_false_iff_ne]
  omega

theorem isNameStart_eq_false_of_isDigit {c : Char} (h : c.isDigit = true) :
    isNameStart c = false := by
  rw [Bool.eq_false_iff]
  intro start
  have := Lexes.toNat_of_isDigit h
  have := Lexes.toNat_of_isNameStart start
  omega

theorem token_unsigned {c : Char} {r : List Char} {t : Token} (operand : Bool) (p : Pos)
    (digit : c.isDigit = true) (h : number false (c :: r) = (t, rest)) :
    ∃ q, Lexer.token operand p c r = (⟨t, p⟩, q, rest) := by
  refine ⟨advance p (c :: r) rest, ?_⟩
  rw [Lexer.token]
  simp only [ne_of_isDigit digit (show '"'.isDigit = false by decide),
    ne_of_isDigit digit (show '`'.isDigit = false by decide),
    ne_of_isDigit digit (show '\''.isDigit = false by decide),
    isNameStart_eq_false_of_isDigit digit, Bool.false_eq_true, if_false, digit, if_true, h]

theorem token_negative {c : Char} {r : List Char} {t : Token} (p : Pos) (digit : c.isDigit = true)
    (h : number true (c :: r) = (t, rest)) :
    ∃ q, Lexer.token false p '-' (c :: r) = (⟨t, p⟩, q, rest) := by
  refine ⟨advance p ('-' :: c :: r) rest, ?_⟩
  rw [Lexer.token]
  simp only [h, show isNameStart '-' = false by decide, show '-'.isDigit = false by decide,
    List.head?_cons, Option.map_some, digit]
  rfl

/-- A number is read with its minus where no operand stands in front of it. -/
theorem lexes_number {negative : Bool} {cs : List Char} {t : Token}
    (start : cs.head?.map Char.isDigit = some true) (closed : IsClosed t)
    (h : number negative (cs ++ rest) = (t, rest)) :
    LexesFrom false (minus negative ++ cs) [t] rest := by
  cases cs with
  | nil => simp at start
  | cons c r =>
    have digit : c.isDigit = true := by simpa using start
    cases negative with
    | false =>
      exact LexesFrom.token (isBlank_eq_false_of_isDigit digit) (ne_of_isDigit digit (by decide))
        closed fun p => token_unsigned false p digit h
    | true =>
      exact LexesFrom.token (by decide) (by decide) closed fun p => token_negative p digit h

theorem lexes_int {i : Int} (fits : fitsInt i = true) (ends : EndsNumber rest) :
    LexesFrom false (toString i).toList [.int i] rest := by
  obtain ⟨negative, n, rfl, text⟩ := Decimal.exists_toList_toString i
  rw [text]
  obtain ⟨d, ds, digits⟩ := List.exists_cons_of_ne_nil (Decimal.isDigits_toDigits n).1
  have start : (Nat.toDigits 10 n).head?.map Char.isDigit = some true := by
    simp [digits, (Decimal.isDigits_toDigits n).2 d (by simp [digits])]
  exact lexes_number start ⟨by simp, by simp⟩ (number_int negative fits ends)

/-- The text of a finite double is a token for it. -/
theorem lexes_float {x : Float} (finite : Decimal.isFinite x = true) (ends : EndsNumber rest) :
    LexesFrom false (Decimal.scripted.write x).toList [.float x] rest := by
  obtain ⟨negative, body, parted, text⟩ := Decimal.exists_isParted finite
  have read := Decimal.read?_write finite
  rw [text, Decimal.read?_minus parted] at read
  obtain ⟨y, unsigned, rfl⟩ := Option.map_eq_some_iff.1 read
  obtain ⟨d, ds, digits, digit⟩ := parted.exists_digit
  rw [text]
  exact lexes_number (by simp [digits, digit]) ⟨by simp, by simp⟩
    (number_float negative parted ends unsigned)

end Stencil.Script.Lexer
