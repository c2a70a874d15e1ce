import Mathlib.Algebra.Group.Nat.Defs
import Stencil.Decimal.Layout
import Stencil.Decimal.Reading

/-!
# The shape of written doubles

A finite double in a script is written with a fraction, with an exponent or with both, so that it
cannot be taken for a whole number.
-/

namespace Stencil.Decimal

/-! ## Digits -/

def IsDigits (cs : List Char) : Prop := cs ≠ [] ∧ ∀ c ∈ cs, c.isDigit = true

theorem isDigits_toDigits (n : Nat) : IsDigits (Nat.toDigits 10 n) :=
  ⟨Nat.toDigits_ne_nil, fun _ hc => Nat.isDigit_of_mem_toDigits (by decide) (by decide) hc⟩

theorem natOfDigits_eq (cs : List Char) : natOfDigits cs = Nat.ofDigitChars 10 cs 0 := by
  rw [natOfDigits, Nat.ofDigitChars_eq_foldl]
  congr 1
  funext n c
  rw [Nat.mul_comm]
  rfl

theorem natOfDigits_toDigits (n : Nat) : natOfDigits (Nat.toDigits 10 n) = n := by
  rw [natOfDigits_eq, Nat.ofDigitChars_ten_toDigits]

theorem natOfDigits_append_zeros (cs : List Char) (n : Nat) :
    natOfDigits (cs ++ List.replicate n '0') = natOfDigits cs * 10 ^ n := by
  rw [natOfDigits_eq, Nat.ofDigitChars_append, Nat.ofDigitChars_replicate_zero, natOfDigits_eq,
    Nat.mul_comm]

theorem natOfDigits_zeros_append (n : Nat) (cs : List Char) :
    natOfDigits (List.replicate n '0' ++ cs) = natOfDigits cs := by
  rw [natOfDigits_eq, Nat.ofDigitChars_append, Nat.ofDigitChars_replicate_zero, Nat.mul_zero,
    natOfDigits_eq]

theorem isDigits_zero : IsDigits ['0'] := ⟨by simp, List.forall_mem_singleton.2 rfl⟩

theorem isDigit_of_mem_zeros {n : Nat} {c : Char} (h : c ∈ List.replicate n '0') :
    c.isDigit = true := by
  rw [List.eq_of_mem_replicate h]
  decide

theorem IsDigits.behind_zeros {ds : List Char} (n : Nat) (h : IsDigits ds) :
    IsDigits (List.replicate n '0' ++ ds) := by
  refine ⟨by simp [h.1], fun c hc => ?_⟩
  rcases List.mem_append.1 hc with hc | hc
  · exact isDigit_of_mem_zeros hc
  · exact h.2 c hc

theorem IsDigits.before_zeros {ds : List Char} (n : Nat) (h : IsDigits ds) :
    IsDigits (ds ++ List.replicate n '0') := by
  refine ⟨by simp [h.1], fun c hc => ?_⟩
  rcases List.mem_append.1 hc with hc | hc
  · exact h.2 c hc
  · exact isDigit_of_mem_zeros hc

/-! ## Parts -/

def minus (negative : Bool) : List Char := if negative then ['-'] else []

/-- The parts of a number: its digits, and perhaps a fraction and an exponent. -/
structure HasParts (whole part power : List Char) : Prop where
  digits : IsDigits whole
  fraction : part = [] ∨ ∃ ds, part = '.' :: ds ∧ IsDigits ds
  exponent : power = [] ∨ ∃ negative ds, power = 'e' :: (minus negative ++ ds) ∧ IsDigits ds

/-- A number without a sign that has a fraction or an exponent. -/
def IsParted (cs : List Char) : Prop :=
  ∃ whole part power, HasParts whole part power ∧ (part ≠ [] ∨ power ≠ []) ∧
    cs = whole ++ part ++ power

theorem IsParted.of_fraction {ds es : List Char} (h : IsDigits ds) (h' : IsDigits es) :
    IsParted (ds ++ '.' :: es) :=
  ⟨ds, '.' :: es, [], ⟨h, .inr ⟨es, rfl, h'⟩, .inl rfl⟩, .inl (by simp), by simp⟩

/--
In positional notation the digits in front of the point and behind it are those of the number, with
zeros around them.
-/
theorem exists_positional_eq (s : Scientific) :
    ∃ whole fraction, positional s ['.', '0'] = whole ++ '.' :: fraction ∧ IsDigits whole ∧
      IsDigits fraction ∧ ∃ n : Nat, (n : Int) = s.exponent + fraction.length ∧
        natOfDigits (whole ++ fraction) = s.digits * 10 ^ n := by
  have digits := isDigits_toDigits s.digits
  have value := natOfDigits_toDigits s.digits
  unfold positional
  dsimp only [digitsOf]
  split
  · refine ⟨_, ['0'], rfl, digits.before_zeros _, isDigits_zero, s.exponent.natAbs + 1, ?_, ?_⟩
    · rw [List.length_singleton]
      omega
    · rw [← List.replicate_one, natOfDigits_append_zeros, natOfDigits_append_zeros, value,
        Nat.pow_one, Nat.pow_succ, Nat.mul_assoc]
  · split
    · rename_i inside
      refine ⟨_, _, rfl, ⟨?_, fun c hc => digits.2 c (List.mem_of_mem_take hc)⟩,
        ⟨?_, fun c hc => digits.2 c (List.mem_of_mem_drop hc)⟩, 0, ?_, ?_⟩
      · rw [← List.length_pos_iff, List.length_take]
        omega
      · rw [← List.length_pos_iff, List.length_drop]
        omega
      · rw [List.length_drop]
        omega
      · rw [List.take_append_drop, value, Nat.pow_zero, Nat.mul_one]
    · refine ⟨['0'], _, rfl, isDigits_zero, digits.behind_zeros _, 0, ?_, ?_⟩
      · rw [List.length_append, List.length_replicate]
        omega
      · rw [← List.replicate_one, natOfDigits_zeros_append, natOfDigits_zeros_append, value,
          Nat.pow_zero, Nat.mul_one]

theorem isParted_positional (s : Scientific) : IsParted (positional s ['.', '0']) := by
  obtain ⟨whole, fraction, text, digits, digits', -⟩ := exists_positional_eq s
  rw [text]
  exact .of_fraction digits digits'

theorem exists_toList_toString (i : Int) :
    ∃ negative n, i = (if negative then -(n : Int) else n) ∧
      (toString i).toList = minus negative ++ Nat.toDigits 10 n := by
  rw [Int.toString_eq_repr, Int.repr_eq_if]
  split
  · refine ⟨false, i.toNat, ?_, ?_⟩
    · rw [if_neg (by decide)]
      omega
    · rw [Nat.repr_eq_ofList_toDigits, String.toList_ofList]
      rfl
  · refine ⟨true, (-i).toNat, ?_, ?_⟩
    · rw [if_pos rfl]
      omega
    · simp only [Nat.repr_eq_ofList_toDigits, String.toList_append, String.toList_ofList]
      rfl

/-- With an exponent, one digit of the number stands in front of the point, the others behind it. -/
theorem exists_withExponent_eq (s : Scientific) :
    ∃ whole part negative n,
      withExponent s = whole ++ part ++ 'e' :: (minus negative ++ Nat.toDigits 10 n) ∧
      HasParts whole part ('e' :: (minus negative ++ Nat.toDigits 10 n)) ∧
      s.magnitude = (if negative then -(n : Int) else n) ∧
      s.magnitude = s.exponent + part.tail.length ∧
      natOfDigits (whole ++ part.tail) = s.digits := by
  have digits := isDigits_toDigits s.digits
  have value := natOfDigits_toDigits s.digits
  obtain ⟨negative, n, number, text⟩ := exists_toList_toString s.magnitude
  have power : 'e' :: (minus negative ++ Nat.toDigits 10 n) = [] ∨ ∃ sign ds,
      'e' :: (minus negative ++ Nat.toDigits 10 n) = 'e' :: (minus sign ++ ds) ∧ IsDigits ds :=
    .inr ⟨negative, _, rfl, isDigits_toDigits n⟩
  have size : s.magnitude = s.exponent + (Nat.toDigits 10 s.digits).length - 1 := rfl
  unfold withExponent
  dsimp only [digitsOf]
  rw [text]
  match eq : Nat.toDigits 10 s.digits with
  | [] => exact absurd eq digits.1
  | [d] =>
    rw [eq] at digits value size
    exact ⟨[d], [], negative, n, rfl, ⟨digits, .inl rfl, power⟩, number, by simpa using size, value⟩
  | d :: d' :: ds =>
    rw [eq] at digits value size
    refine ⟨[d], '.' :: d' :: ds, negative, n, by simp, ⟨⟨by simp, fun c hc => ?_⟩,
      .inr ⟨_, rfl, by simp, fun c hc => ?_⟩, power⟩, number, ?_, value⟩
    · exact digits.2 c (by simp_all)
    · exact digits.2 c (List.mem_cons_of_mem _ hc)
    · simp only [List.length_cons, List.tail_cons] at size ⊢
      omega

theorem isParted_withExponent (s : Scientific) : IsParted (withExponent s) := by
  obtain ⟨whole, part, negative, n, text, parts, -⟩ := exists_withExponent_eq s
  exact ⟨whole, part, _, parts, .inr (by simp), text⟩

theorem IsParted.exists_digit {body : List Char} (h : IsParted body) :
    ∃ d ds, body = d :: ds ∧ d.isDigit = true := by
  obtain ⟨whole, part, power, parts, -, rfl⟩ := h
  obtain ⟨d, ds, rfl⟩ := List.exists_cons_of_ne_nil parts.digits.1
  exact ⟨d, _, rfl, parts.digits.2 d (by simp)⟩

theorem read?_minus {body : List Char} (h : IsParted body) (negative : Bool) :
    read? (minus negative ++ body) =
      (readUnsigned? body).map fun x => if negative then -x else x := by
  cases negative with
  | true => rfl
  | false =>
    obtain ⟨d, ds, rfl, digit⟩ := h.exists_digit
    have other : d ≠ '-' ∧ d ≠ '+' := by
      constructor <;> rintro rfl <;> exact absurd digit (by decide)
    simp [read?, minus, other]

/-! ## Texts of doubles -/

/-- A finite double is written in parts, perhaps behind a minus. -/
theorem exists_isParted {x : Float} (finite : isFinite x = true) :
    ∃ negative body, IsParted body ∧ (scripted.write x).toList = minus negative ++ body := by
  unfold isFinite at finite
  unfold Layout.write
  cases kind : parts x with
  | nan => simp [kind] at finite
  | infinite negative => simp [kind] at finite
  | finite negative m q =>
    dsimp only
    split
    · rw [if_pos (show scripted.signedZero = true from rfl), String.toList_ofList]
      exact ⟨negative, _, .of_fraction isDigits_zero isDigits_zero, rfl⟩
    · rw [String.toList_ofList]
      refine ⟨negative, _, ?_, rfl⟩
      split
      · exact isParted_positional _
      · split
        · exact isParted_withExponent _
        · exact isParted_positional _

end Stencil.Decimal
