import Mathlib.Data.Nat.Cast.Field
import Stencil.Proofs.Decimal
import Stencil.Proofs.Double.Shortest

/-!
# Written doubles read back

Whichever way the digits of a double are laid out, the text denotes the number that the digits and
the exponent give, and this number lies in the rounding interval of the double.
-/

namespace Stencil.Decimal

variable {m : Nat} {q : Int} {cs ds whole part power : List Char} {v : ℚ}

/-! ## Digits -/

theorem exists_toDigits_eq (n : Nat) :
    ∃ kept, Nat.toDigits 10 n =
      kept ++ List.replicate ((Nat.toDigits 10 n).reverse.takeWhile (· = '0')).length '0' := by
  have all : (Nat.toDigits 10 n).reverse.takeWhile (· = '0') =
      List.replicate ((Nat.toDigits 10 n).reverse.takeWhile (· = '0')).length '0' :=
    List.eq_replicate_of_mem fun c hc => by simpa using List.all_eq_true.1 List.all_takeWhile c hc
  refine ⟨((Nat.toDigits 10 n).reverse.dropWhile (· = '0')).reverse, ?_⟩
  rw [← List.reverse_replicate, ← List.reverse_append, ← all, List.takeWhile_append_dropWhile,
    List.reverse_reverse]

theorem normalize_spec {s : Scientific} (h : 0 < s.digits) :
    0 < s.normalize.digits ∧ s.normalize.value = s.value := by
  obtain ⟨kept, text⟩ := exists_toDigits_eq s.digits
  have digits := natOfDigits_toDigits s.digits
  unfold Scientific.normalize
  rw [if_neg h.ne']
  dsimp only [digitsOf]
  generalize ((Nat.toDigits 10 s.digits).reverse.takeWhile (· = '0')).length = zeros at *
  rw [text, natOfDigits_append_zeros] at digits
  have power : 0 < 10 ^ zeros := Nat.pow_pos (by decide)
  have quotient : s.digits / Nat.pow 10 zeros = natOfDigits kept := by
    rw [← digits]
    exact Nat.mul_div_cancel _ power
  rw [quotient]
  refine ⟨Nat.pos_of_mul_pos_right (digits ▸ h), ?_⟩
  have digits : (natOfDigits kept * 10 ^ zeros : ℚ) = s.digits := by exact_mod_cast digits
  rw [Scientific.value, Scientific.value, ← digits, zpow_add₀ (by norm_num), zpow_natCast]
  ring

/-! ## Reading text -/

/-- That a text without a sign reads as the double nearest to `v`. -/
def Denotes (cs : List Char) (v : ℚ) : Prop :=
  ∃ d k, readUnsigned? cs = some (nearest d k) ∧ (d * 10 ^ k : ℚ) = v

theorem Denotes.reads (h : Denotes cs v) (c : IsCanonical m q) (rounds : RoundsTo v m q) :
    readUnsigned? cs = some (double false c) := by
  obtain ⟨d, k, read, rfl⟩ := h
  have positive : 0 < d := by
    by_contra zero
    obtain rfl : d = 0 := by omega
    have least := rounds.two_zpow_le c
    have : (0 : ℚ) < 2 ^ (-1075 : Int) := by positivity
    rw [Nat.cast_zero, zero_mul] at least
    exact this.not_ge least
  rw [read, rounds.nearest_eq c positive]

theorem span_digits {rest : List Char} (h : IsDigits ds)
    (stops : ∀ c, rest.head? = some c → c.isDigit = false) :
    (ds ++ rest).takeWhile Char.isDigit = ds ∧ (ds ++ rest).dropWhile Char.isDigit = rest := by
  rw [List.takeWhile_append_of_pos h.2, List.dropWhile_append_of_pos h.2]
  cases rest with
  | nil => simp
  | cons c more => simp [stops c rfl]

theorem readUnsigned?_parts (parts : HasParts whole part power) :
    readUnsigned? (whole ++ part ++ power) = (exponent? power).map fun e =>
      nearest (natOfDigits (whole ++ part.tail)) (e - (part.tail.length : Int)) := by
  have behind : ∀ c, power.head? = some c → c = 'e' := by
    intro c hc
    rcases parts.exponent with rfl | ⟨negative, ds, rfl, -⟩
    · simp at hc
    · simpa using hc.symm
  have stops : ∀ c, power.head? = some c → c.isDigit = false := by
    intro c hc
    rw [behind c hc]
    decide
  have filled : whole.isEmpty = false := by simpa using parts.digits.1
  rw [List.append_assoc, readUnsigned?]
  rcases parts.fraction with rfl | ⟨ds, rfl, digits⟩
  · obtain ⟨all, rest⟩ := span_digits parts.digits stops
    rw [List.nil_append, all, rest]
    split
    rename_i fraction rest eq
    split at eq
    · exact absurd (behind '.' rfl) (by decide)
    · obtain ⟨rfl, rfl⟩ := Prod.mk.inj eq
      rw [filled, Option.map_eq_bind]
      rfl
  · have point : ∀ c, ('.' :: (ds ++ power)).head? = some c → c.isDigit = false := by simp
    obtain ⟨all, rest⟩ := span_digits parts.digits point
    obtain ⟨all', rest'⟩ := span_digits digits stops
    rw [List.cons_append, all, rest]
    simp only [all', rest', filled]
    rw [Option.map_eq_bind]
    rfl

theorem foldl_capped (cs : List Char) (n limit : Nat) :
    cs.foldl (fun n c => min (n * 10 + (c.toNat - 48)) limit) (min n limit) =
      min (cs.foldl (fun n c => n * 10 + (c.toNat - 48)) n) limit := by
  induction cs generalizing n with
  | nil => rfl
  | cons c rest ih =>
    have step : min (min n limit * 10 + (c.toNat - 48)) limit =
        min (n * 10 + (c.toNat - 48)) limit := by omega
    rw [List.foldl_cons, List.foldl_cons, ← ih, step]

theorem exponent?_cons {n : Nat} (negative : Bool) (small : n ≤ 1000000) :
    exponent? ('e' :: (minus negative ++ Nat.toDigits 10 n)) =
      some (if negative then -(n : Int) else n) := by
  have digits := isDigits_toDigits n
  have filled : (Nat.toDigits 10 n).isEmpty = false := by simp
  have all : (Nat.toDigits 10 n).all Char.isDigit = true := List.all_eq_true.2 digits.2
  have value :
      (Nat.toDigits 10 n).foldl (fun n c => min (n * 10 + (c.toNat - 48)) 1000000) 0 = n := by
    have capped := foldl_capped (Nat.toDigits 10 n) 0 1000000
    rwa [← natOfDigits, natOfDigits_toDigits, Nat.zero_min, Nat.min_eq_left small] at capped
  cases negative with
  | true =>
    change exponent? ('e' :: '-' :: Nat.toDigits 10 n) = _
    rw [exponent?, if_pos (by decide)]
    simp only [filled, all, value]
    rfl
  | false =>
    change exponent? ('e' :: Nat.toDigits 10 n) = _
    have unsigned (c : Char) (hc : c.isDigit = false) :
        ∀ r, Nat.toDigits 10 n = c :: r → False := by
      intro r eq
      have digit := digits.2 c (by simp [eq])
      exact absurd (hc.symm.trans digit) (by decide)
    rw [exponent?, if_pos (by decide)]
    · simp only [filled, all, value]
      rfl
    · exact unsigned '-' (by decide)
    · exact unsigned '+' (by decide)

/-! ## Layouts -/

theorem denotes_positional (s : Scientific) : Denotes (positional s ['.', '0']) s.value := by
  obtain ⟨whole, fraction, text, digits, digits', n, size, value⟩ := exists_positional_eq s
  have read := readUnsigned?_parts ⟨digits, .inr ⟨fraction, rfl, digits'⟩, .inl rfl⟩
  rw [List.append_nil] at read
  rw [text]
  refine ⟨_, _, read, ?_⟩
  have exponent : s.exponent = n + (0 - (fraction.length : Int)) := by omega
  rw [List.tail_cons, value, Scientific.value, exponent, zpow_add₀ (by norm_num), zpow_natCast]
  push_cast
  ring

theorem denotes_withExponent {s : Scientific} (small : s.magnitude.natAbs ≤ 1000000) :
    Denotes (withExponent s) s.value := by
  obtain ⟨whole, part, negative, n, text, parts, number, size, value⟩ := exists_withExponent_eq s
  have few : n ≤ 1000000 := by
    rw [number] at small
    split at small <;> omega
  have read := readUnsigned?_parts parts
  rw [exponent?_cons negative few, ← number] at read
  rw [text]
  refine ⟨_, _, read, ?_⟩
  have exponent : s.magnitude - (part.tail.length : Int) = s.exponent := by omega
  rw [value, exponent, Scientific.value]

/-! ## Doubles -/

theorem eq_of_toNat_toBits {x y : Float} (h : x.toBits.toNat = y.toBits.toNat) : x = y := by
  obtain ⟨⟨n, valid⟩⟩ := x
  obtain ⟨⟨n', valid'⟩⟩ := y
  obtain rfl : n = n' := UInt64.toNat_inj.1 h
  rfl

/-- Only zero has no digits. -/
theorem eq_zero {x : Float} {negative : Bool} (h : parts x = .finite negative 0 q) :
    x = if negative then -0.0 else 0.0 := by
  have bound : x.toBits.toNat < 2 ^ 64 := x.toBits.toNat_lt
  obtain ⟨rfl, finite, fields⟩ := ofBits_eq h
  have low : x.toBits.toNat % 2 ^ 63 = 0 := by
    split at fields <;> omega
  apply eq_of_toNat_toBits
  rcases Nat.mod_two_eq_zero_or_one (x.toBits.toNat / 2 ^ 63) with top | top
  · have sign : signBit x.toBits.toNat = false := by
      change (x.toBits.toNat / 2 ^ 63 % 2 == 1) = false
      rw [top]
      rfl
    have zero : (0.0 : Float).toBits.toNat = 0 := by decide +kernel
    rw [sign, if_neg (by decide), zero]
    omega
  · have sign : signBit x.toBits.toNat = true := by
      change (x.toBits.toNat / 2 ^ 63 % 2 == 1) = true
      rw [top]
      rfl
    have zero : (-0.0 : Float).toBits.toNat = 2 ^ 63 := by decide +kernel
    rw [sign, if_pos rfl, zero]
    omega

theorem denotes_whole {x : Float} {negative : Bool} (h : parts x = .finite negative m q)
    (whole : isWhole x = true) :
    Denotes (positional ⟨(Quotient.ofBinary m q).num / (Quotient.ofBinary m q).den, 0⟩ ['.', '0'])
      (m * 2 ^ q) := by
  have divides : (Quotient.ofBinary m q).den ∣ (Quotient.ofBinary m q).num := by
    unfold isWhole at whole
    rw [h] at whole
    dsimp only at whole
    unfold Quotient.ofBinary
    split
    · exact Nat.one_dvd _
    · rename_i fraction
      rw [if_neg fraction] at whole
      exact Nat.dvd_of_mod_eq_zero (by simpa using whole)
  have den : ((Quotient.ofBinary m q).den : ℚ) ≠ 0 := by
    exact_mod_cast (Quotient.den_ofBinary m q).ne'
  have denotes := denotes_positional
    ⟨(Quotient.ofBinary m q).num / (Quotient.ofBinary m q).den, 0⟩
  rw [Scientific.value, zpow_zero, mul_one, Nat.cast_div divides den] at denotes
  rw [← Quotient.value_ofBinary]
  exact denotes

theorem roundsTo_normalize (c : IsCanonical m q) :
    0 < (shortest m q).normalize.digits ∧ RoundsTo (shortest m q).normalize.value m q := by
  obtain ⟨digits, rounds⟩ := shortest_spec c
  obtain ⟨positive, same⟩ := normalize_spec digits
  exact ⟨positive, same ▸ rounds⟩

theorem natAbs_magnitude_le (c : IsCanonical m q) :
    (shortest m q).normalize.magnitude.natAbs ≤ 1000000 := by
  obtain ⟨positive, rounds⟩ := roundsTo_normalize c
  have range := rounds.digits_range c positive
  rw [digitCount] at range
  rw [Scientific.magnitude, digitsOf]
  omega

/-- A finite double that was written in a script reads back. -/
theorem read?_write {x : Float} (finite : isFinite x = true) :
    read? (scripted.write x).toList = some x := by
  unfold isFinite at finite
  unfold Layout.write
  cases kind : parts x with
  | nan => simp [kind] at finite
  | infinite negative => simp [kind] at finite
  | finite negative m q =>
    dsimp only
    split
    · rename_i zero
      subst zero
      rw [if_pos (show scripted.signedZero = true from rfl), String.toList_ofList, eq_zero kind]
      cases negative <;> decide +kernel
    · rename_i nonzero
      obtain ⟨c, eq⟩ := exists_double kind (Nat.pos_of_ne_zero nonzero)
      have signed {body : List Char} {v : ℚ} (parted : IsParted body) (denotes : Denotes body v)
          (rounds : RoundsTo v m q) : read? (minus negative ++ body) = some x := by
        rw [read?_minus parted, denotes.reads c rounds, eq]
        cases negative with
        | false => rfl
        | true => exact congrArg some (neg_double c)
      rw [String.toList_ofList]
      change read? (minus negative ++ _) = _
      split
      · rename_i whole
        rw [Bool.and_eq_true] at whole
        exact signed (isParted_positional _) (denotes_whole kind whole.2) c.roundsTo_self
      · obtain ⟨-, rounds⟩ := roundsTo_normalize c
        split
        · exact signed (isParted_withExponent _) (denotes_withExponent (natAbs_magnitude_le c))
            rounds
        · exact signed (isParted_positional _) (denotes_positional _) rounds

end Stencil.Decimal
