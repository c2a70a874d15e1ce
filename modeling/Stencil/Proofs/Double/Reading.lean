import Stencil.Decimal.Reading
import Stencil.Proofs.Double.Packing

/-!
# Reading decimals

A decimal in the rounding interval of a double reads as this double, by whichever way it is read.
-/

namespace Stencil.Decimal

open Float.Model Float.Model.UnpackedFloat

variable {m d : Nat} {q k : Int}

/-! ## The range of doubles -/

namespace RoundsTo

variable {x : ℚ}

theorem two_zpow_le (h : RoundsTo x m q) (c : IsCanonical m q) : 2 ^ (-1075 : Int) ≤ x := by
  have one : (1 : ℚ) ≤ m := by exact_mod_cast c.positive
  have least : (2 : ℚ) ^ (-1075 : Int) ≤ 2 ^ (q - 1) :=
    zpow_le_zpow_right₀ one_le_two (by have := c.least; omega)
  have half : (2 : ℚ) ^ (q - 1) = 2 * 2 ^ (q - 2) := by
    rw [show q - 1 = q - 2 + (1 : Nat) by omega, zpow_two_add, pow_one]
  have low := roundingBounds_low q c.positive
  have unit : (0 : ℚ) < 2 ^ (q - 2) := by positivity
  nlinarith [h.low]

theorem lt_two_zpow (h : RoundsTo x m q) (c : IsCanonical m q) : x < 2 ^ (1024 : Int) :=
  (h.lt_zpow c).trans_le (zpow_le_zpow_right₀ one_le_two (by have := c.greatest; omega))

/-- Infinity and zero are never read in place of a finite double. -/
theorem exponent_range (h : RoundsTo (d * 10 ^ k) m q) (c : IsCanonical m q) (hd : 0 < d) :
    k ≤ 2 ^ 11 ∧ -(2 ^ 11 + d.log2) ≤ k := by
  constructor
  · by_contra large
    rw [not_le] at large
    have one : (1 : ℚ) ≤ d := by exact_mod_cast hd
    have power : (2 : ℚ) ^ (1024 : Int) ≤ d * 10 ^ k := calc
      (2 : ℚ) ^ (1024 : Int) ≤ 2 ^ k := zpow_le_zpow_right₀ one_le_two (by omega)
      _ ≤ 10 ^ k := zpow_le_zpow_left₀ (by omega) (by norm_num) (by norm_num)
      _ ≤ d * 10 ^ k := le_mul_of_one_le_left (by positivity) one
    exact (h.lt_two_zpow c).not_ge power
  · by_contra small
    rw [not_le] at small
    obtain ⟨n, rfl⟩ : ∃ n : Nat, k = -n := ⟨(-k).toNat, by omega⟩
    have bits : (d : ℚ) ≤ 2 ^ (d.log2 + 1 : Int) := by exact_mod_cast Nat.lt_log2_self.le
    have power : (10 : ℚ) ^ (-n : Int) ≤ 2 ^ (-n : Int) := by
      rw [zpow_neg, zpow_neg, zpow_natCast, zpow_natCast]
      exact inv_anti₀ (by positivity) (pow_le_pow_left₀ (by norm_num) (by norm_num) n)
    have less : d * (10 : ℚ) ^ (-n : Int) < 2 ^ (-1075 : Int) := calc
      d * (10 : ℚ) ^ (-n : Int) ≤ 2 ^ (d.log2 + 1 : Int) * 2 ^ (-n : Int) :=
        mul_le_mul bits power (by positivity) (by positivity)
      _ = 2 ^ (d.log2 + 1 + -n : Int) := (zpow_add₀ two_ne_zero _ _).symm
      _ < 2 ^ (-1075 : Int) := zpow_lt_zpow_right₀ one_lt_two (by omega)
    exact (h.two_zpow_le c).not_gt less

end RoundsTo

/-! ## Exact decimals -/

theorem ofScientific_model (c : IsCanonical m q) (hd : 0 < d)
    (rounds : RoundsTo (d * 10 ^ k) m q) :
    UnpackedFloat.ofScientific Format.binary64 d k = .finite .positive m q c.positive := by
  obtain ⟨most, least⟩ := rounds.exponent_range c hd
  have bits : Format.binary64.exponentBits = 11 := rfl
  have size : Format.binary64.mantissaBits = 53 := rfl
  rw [UnpackedFloat.ofScientific, dif_neg hd.ne', if_neg (by rw [bits]; omega),
    if_neg (by rw [bits]; omega)]
  split
  · rename_i whole
    obtain ⟨n, rfl⟩ := Int.eq_ofNat_of_zero_le whole
    have value : ((d <<< 53 : Nat) : ℚ) * 2 ^ (-(53 : Nat) : Int) *
        ((10 ^ n : Nat) * 2 ^ (0 : Int)) = d * 10 ^ (n : Int) := by
      rw [Nat.shiftLeft_eq, zpow_neg, zpow_natCast, zpow_natCast]
      push_cast
      field_simp
      norm_num
    have wide : 2 ^ 52 ≤ d <<< 53 * 10 ^ n := by
      have one : 0 < 10 ^ n := by positivity
      rw [Nat.shiftLeft_eq]
      nlinarith
    rw [← value] at rounds
    simp only [size, Int.toNat_natCast]
    rw [mul_eq c rounds wide]
    rfl
  · rename_i fraction
    obtain ⟨n, rfl⟩ : ∃ n : Nat, k = -n := ⟨(-k).toNat, by omega⟩
    have value : (d : ℚ) * 2 ^ (0 : Int) / ((10 ^ n : Nat) * 2 ^ (0 : Int)) =
        d * 10 ^ (-n : Int) := by
      rw [zpow_neg, zpow_natCast]
      push_cast
      field_simp
    rw [← value] at rounds
    simp only [neg_neg, Int.toNat_natCast]
    rw [div_eq c rounds]
    rfl

/-! ## Small decimals -/

theorem IsCanonical.roundsTo_self (c : IsCanonical m q) : RoundsTo (m * 2 ^ q) m q := by
  have unit : (0 : ℚ) < 2 ^ (q - 2) := by positivity
  have positive := c.positive
  have low : (roundingBounds m q).1 + 1 ≤ 4 * m := by
    unfold roundingBounds
    dsimp only
    split <;> omega
  have low' : ((roundingBounds m q).1 : ℚ) + 1 ≤ 4 * m := by exact_mod_cast low
  have high := roundingBounds_high m q
  rw [zpow_eq_quarters]
  refine ⟨by nlinarith, by nlinarith, fun _ => ⟨by nlinarith, by nlinarith⟩⟩

/-- That a double is positive, and which number it is. -/
def HasValue (x : Float) (v : ℚ) : Prop :=
  ∃ m q h, x.toModel.unpack = .finite .positive m q h ∧ (m * 2 ^ q : ℚ) = v ∧ 2 ^ 52 ≤ m

theorem hasValue_double (c : IsCanonical m q) (h : 2 ^ 52 ≤ m) :
    HasValue (double false c) (m * 2 ^ q) :=
  ⟨m, q, c.positive, unpack_pack c, rfl, h⟩

theorem hasValue_ofNat (hd : 0 < d) (small : d < 2 ^ 53) : HasValue d.toUInt64.toFloat d := by
  obtain ⟨s, hs⟩ : ∃ s : Nat, (d.log2 : Int) - 52 = -s :=
    ⟨52 - d.log2, by have := (Nat.log2_lt hd.ne').2 small; omega⟩
  have least : 2 ^ 52 ≤ d * 2 ^ s := calc
    2 ^ 52 = 2 ^ d.log2 * 2 ^ s := by rw [← Nat.pow_add]; congr 1; omega
    _ ≤ d * 2 ^ s := Nat.mul_le_mul_right _ (Nat.log2_self_le hd.ne')
  have most : d * 2 ^ s < 2 ^ 53 := calc
    d * 2 ^ s < 2 ^ (d.log2 + 1) * 2 ^ s :=
      Nat.mul_lt_mul_of_pos_right Nat.lt_log2_self (Nat.two_pow_pos s)
    _ = 2 ^ 53 := by rw [← Nat.pow_add]; congr 1; omega
  have c : IsCanonical (d * 2 ^ s) (-s) := ⟨by omega, most, by omega, by omega, .inl least⟩
  have value : ((d * 2 ^ s : Nat) * 2 ^ (-s : Int) : ℚ) = d := by
    rw [zpow_neg, zpow_natCast]
    push_cast
    field_simp
  have word : d.toUInt64.toNat = d := UInt64.toNat_ofNat_of_lt' (by unfold UInt64.size; omega)
  have target : Format.binary64.targetExponent (totalExponent d 0) = -s := by
    rw [targetExponent_eq]
    omega
  have shift : (0 - -(s : Int)).toNat = s := by omega
  have same : UnpackedFloat.ofUInt64 Format.binary64 d.toUInt64 =
      .finite .positive (d * 2 ^ s) (-s) c.positive := by
    have sign : compare (d : Int) 0 = .gt := by
      rw [compare_gt_iff_gt]
      omega
    rw [UnpackedFloat.ofUInt64, word, UnpackedFloat.ofNat, UnpackedFloat.ofInt,
      UnpackedFloat.normalize, sign]
    dsimp only
    rw [Int.toNat_natCast, UnpackedFloat.round, target, decreaseExponent, shift, Nat.shiftLeft_eq,
      zero_sub]
    refine roundWithAccuracy_eq c c.roundsTo_self ?_ c.target.ge
    rw [mul_div_cancel_right₀ _ (by positivity)]
    exact Stands.exact _
  change HasValue (.ofModel (.pack (UnpackedFloat.ofUInt64 _ _))) _
  rw [same, ← value]
  exact hasValue_double c least

def isPowerOfTen (n : Nat) : UnpackedFloat → Bool
  | .finite .positive m q _ => 2 ^ 52 ≤ m && m * 2 ^ q.toNat == 10 ^ n * 2 ^ (-q).toNat
  | _ => false

theorem isPowerOfTen_table : ∀ n : Fin 23,
    isPowerOfTen n Float.exactlyRepresentablePowersOfTen[n].toModel.unpack = true := by
  decide +kernel

theorem hasValue_power {n : Nat} (hn : n < Float.exactlyRepresentablePowersOfTen.size) :
    HasValue Float.exactlyRepresentablePowersOfTen[n] (10 ^ n) := by
  have entry := isPowerOfTen_table ⟨n, hn⟩
  unfold isPowerOfTen at entry
  split at entry
  · rename_i m q positive eq
    obtain ⟨large, exact⟩ : 2 ^ 52 ≤ m ∧ m * 2 ^ q.toNat = 10 ^ n * 2 ^ (-q).toNat := by
      simpa using entry
    refine ⟨m, q, positive, eq, ?_, large⟩
    have value : (m * 2 ^ (q.toNat : Int) : ℚ) = 10 ^ n * 2 ^ ((-q).toNat : Int) := by
      rw [zpow_natCast, zpow_natCast]
      exact_mod_cast exact
    have power : (2 : ℚ) ^ (q.toNat : Int) = 2 ^ q * 2 ^ ((-q).toNat : Int) := by
      rw [← zpow_add₀ two_ne_zero]
      congr 1
      omega
    rw [power, ← mul_assoc] at value
    exact mul_right_cancel₀ (by positivity) value
  · simp at entry

theorem HasValue.mul {x y : Float} {v w : ℚ} (hx : HasValue x v) (hy : HasValue y w)
    (c : IsCanonical m q) (rounds : RoundsTo (v * w) m q) : x * y = double false c := by
  obtain ⟨m₁, q₁, h₁, eq₁, rfl, large₁⟩ := hx
  obtain ⟨m₂, q₂, h₂, eq₂, rfl, large₂⟩ := hy
  change Float.ofModel (.pack (UnpackedFloat.mul Format.binary64 x.toModel.unpack
    y.toModel.unpack)) = _
  rw [eq₁, eq₂, mul_eq c rounds (by nlinarith)]
  rfl

theorem HasValue.div {x y : Float} {v w : ℚ} (hx : HasValue x v) (hy : HasValue y w)
    (c : IsCanonical m q) (rounds : RoundsTo (v / w) m q) : x / y = double false c := by
  obtain ⟨m₁, q₁, h₁, eq₁, rfl, -⟩ := hx
  obtain ⟨m₂, q₂, h₂, eq₂, rfl, -⟩ := hy
  change Float.ofModel (.pack (UnpackedFloat.div Format.binary64 x.toModel.unpack
    y.toModel.unpack)) = _
  rw [eq₁, eq₂, div_eq c rounds]
  rfl

/-! ## All decimals -/

theorem ofScientific_eq (c : IsCanonical m q) (hd : 0 < d) (rounds : RoundsTo (d * 10 ^ k) m q) :
    Float.ofScientific d (k < 0) k.natAbs = double false c := by
  rw [Float.ofScientific]
  split
  · rename_i small
    have digits := hasValue_ofNat hd small.1
    have power := hasValue_power (Nat.lt_succ_of_le small.2)
    split
    · rename_i negative
      have inverse : (10 : ℚ) ^ k = (10 ^ k.natAbs)⁻¹ := by
        rw [← zpow_natCast, ← zpow_neg, Int.ofNat_natAbs_of_nonpos (of_decide_eq_true negative).le,
          neg_neg]
      rw [inverse, ← div_eq_mul_inv] at rounds
      exact digits.div power c rounds
    · rename_i positive
      have natural : (10 : ℚ) ^ k = 10 ^ k.natAbs := by
        rw [← zpow_natCast, Int.natAbs_of_nonneg (by simpa using positive)]
      rw [natural] at rounds
      exact digits.mul power c rounds
  · have exponent : (if decide (k < 0) = true then Int.negOfNat k.natAbs else Int.ofNat k.natAbs) =
        k := by
      simp only [decide_eq_true_eq, Int.negOfNat_eq, Int.ofNat_eq_natCast]
      split <;> omega
    rw [exponent]
    change Float.ofModel (.pack (UnpackedFloat.ofScientific _ _ _)) = _
    rw [ofScientific_model c hd rounds]
    rfl

theorem RoundsTo.of_nat {n s : Nat} (hs : q - 2 = s)
    (bounds : (roundingBounds m q).1 * 2 ^ s ≤ n ∧ n ≤ (roundingBounds m q).2 * 2 ^ s)
    (inside : m % 2 = 1 →
      (roundingBounds m q).1 * 2 ^ s < n ∧ n < (roundingBounds m q).2 * 2 ^ s) :
    RoundsTo n m q := by
  refine ⟨?_, ?_, fun odd => ⟨?_, ?_⟩⟩ <;> rw [hs, zpow_natCast]
  · exact_mod_cast bounds.1
  · exact_mod_cast bounds.2
  · exact_mod_cast (inside odd).1
  · exact_mod_cast (inside odd).2

theorem RoundsTo.of_near {n : Nat} (large : 2 ^ 52 ≤ m) (low : 2 ^ 63 ≤ n)
    (bounds : 2048 * m ≤ n + 1024 ∧ n ≤ 2048 * m + 1024)
    (inside : m % 2 = 1 → 2048 * m < n + 1024 ∧ n < 2048 * m + 1024) : RoundsTo n m 11 := by
  have lowest : (roundingBounds m 11).1 = 4 * m - 2 ∨
      m = 2 ^ 52 ∧ (roundingBounds m 11).1 = 4 * m - 1 := by
    unfold roundingBounds
    dsimp only
    split
    · rename_i boundary
      exact .inr ⟨boundary.1, rfl⟩
    · exact .inl rfl
  have highest : (roundingBounds m 11).2 = 4 * m + 2 := rfl
  have shift : (11 - 2 : Int) = (9 : Nat) := rfl
  exact .of_nat shift (by omega) (by omega)

/-- A whole number of 64 bits has eleven bits behind those of its double. -/
theorem exists_roundsTo {n : Nat} (low : 2 ^ 63 ≤ n) (high : n < 2 ^ 64) :
    ∃ m q, ∃ _ : IsCanonical m q, RoundsTo n m q := by
  have canonical {m : Nat} (large : 2 ^ 52 ≤ m) (small : m < 2 ^ 53) : IsCanonical m 11 :=
    ⟨by omega, small, by omega, by omega, .inl large⟩
  by_cases down : n % 2048 < 1024 ∨ n % 2048 = 1024 ∧ n / 2048 % 2 = 0
  · exact ⟨n / 2048, 11, canonical (by omega) (by omega),
      .of_near (by omega) low (by omega) (by omega)⟩
  · by_cases carry : n / 2048 + 1 = 2 ^ 53
    · have bounds : roundingBounds hiddenBit 12 = (4 * hiddenBit - 1, 4 * hiddenBit + 2) := rfl
      have hidden : hiddenBit = 2 ^ 52 := rfl
      have shift : (12 - 2 : Int) = (10 : Nat) := rfl
      refine ⟨hiddenBit, 12, ⟨by omega, by omega, by omega, by omega, .inl hidden.ge⟩,
        .of_nat shift ?_ ?_⟩
      · rw [bounds]
        omega
      · omega
    · exact ⟨n / 2048 + 1, 11, canonical (by omega) (by omega),
        .of_near (by omega) low (by omega) (by omega)⟩

theorem isFinite_ofInt {i : Int} (low : 2 ^ 63 ≤ i) (high : i < 2 ^ 64) :
    isFinite (Float.ofInt i) = true := by
  obtain ⟨n, rfl⟩ := Int.eq_ofNat_of_zero_le (show 0 ≤ i by omega)
  obtain ⟨m, q, c, rounds⟩ := @exists_roundsTo n (by omega) (by omega)
  have value : (n : ℚ) = n * 10 ^ (0 : Int) := by rw [zpow_zero, mul_one]
  rw [value] at rounds
  have same : Float.ofInt n = double false c := ofScientific_eq c (by omega) rounds
  rw [same]
  exact isFinite_double false c

/-! ## The nearest double -/

theorem lt_ten_zpow_digitCount (n : Nat) : (n : ℚ) < 10 ^ (digitCount n : Int) := by
  rw [zpow_natCast]
  exact_mod_cast (Nat.length_toDigits_le_iff (by decide) Nat.length_toDigits_pos).1 le_rfl

theorem ten_zpow_digitCount_le {n : Nat} (h : 0 < n) : (10 : ℚ) ^ (digitCount n - 1 : Int) ≤ n := by
  obtain ⟨l, hl⟩ : ∃ l, digitCount n = l + 1 :=
    Nat.exists_eq_add_one.2 Nat.length_toDigits_pos
  rw [hl, Nat.cast_add_one, add_sub_cancel_right, zpow_natCast]
  rcases l.eq_zero_or_pos with rfl | positive
  · exact_mod_cast h
  · have long : ¬ digitCount n ≤ l := by omega
    rw [digitCount, Nat.length_toDigits_le_iff (by decide) positive, not_lt] at long
    exact_mod_cast long

theorem two_zpow_le_ten_zpow : (2 : ℚ) ^ (1024 : Int) ≤ 10 ^ (310 : Int) := calc
  (2 : ℚ) ^ (1024 : Int) ≤ 2 ^ (205 * 5 : Int) := zpow_le_zpow_right₀ one_le_two (by omega)
  _ = (2 ^ (205 : Int)) ^ (5 : Int) := zpow_mul _ _ _
  _ ≤ (10 ^ (62 : Int)) ^ (5 : Int) :=
    zpow_le_zpow_left₀ (by omega) (by positivity) (by norm_num)
  _ = 10 ^ (62 * 5 : Int) := (zpow_mul _ _ _).symm
  _ = 10 ^ (310 : Int) := rfl

theorem ten_zpow_le_two_zpow : (10 : ℚ) ^ (-331 : Int) ≤ 2 ^ (-1075 : Int) := calc
  (10 : ℚ) ^ (-331 : Int) ≤ 10 ^ (-10 * 33 : Int) := zpow_le_zpow_right₀ (by norm_num) (by omega)
  _ = (10 ^ (-10 : Int)) ^ (33 : Int) := zpow_mul _ _ _
  _ ≤ (2 ^ (-33 : Int)) ^ (33 : Int) :=
    zpow_le_zpow_left₀ (by omega) (by positivity) (by norm_num)
  _ = 2 ^ (-33 * 33 : Int) := (zpow_mul _ _ _).symm
  _ ≤ 2 ^ (-1075 : Int) := zpow_le_zpow_right₀ one_le_two (by omega)

/-- How many digits a decimal may have in front of its point, if it is to read as a finite double -/
theorem RoundsTo.digits_range (rounds : RoundsTo (d * 10 ^ k) m q) (c : IsCanonical m q)
    (hd : 0 < d) : -330 ≤ k + (digitCount d : Int) ∧ k + (digitCount d : Int) ≤ 310 := by
  have unit : (0 : ℚ) < 10 ^ k := by positivity
  constructor
  · by_contra small
    have power : d * (10 : ℚ) ^ k < 2 ^ (-1075 : Int) := calc
      d * (10 : ℚ) ^ k < 10 ^ (digitCount d : Int) * 10 ^ k :=
        mul_lt_mul_of_pos_right (lt_ten_zpow_digitCount d) unit
      _ = 10 ^ (digitCount d + k : Int) := (zpow_add₀ (by norm_num) _ _).symm
      _ ≤ 10 ^ (-331 : Int) := zpow_le_zpow_right₀ (by norm_num) (by omega)
      _ ≤ 2 ^ (-1075 : Int) := ten_zpow_le_two_zpow
    exact (rounds.two_zpow_le c).not_gt power
  · by_contra large
    have power : (2 : ℚ) ^ (1024 : Int) ≤ d * 10 ^ k := calc
      (2 : ℚ) ^ (1024 : Int) ≤ 10 ^ (310 : Int) := two_zpow_le_ten_zpow
      _ ≤ 10 ^ (digitCount d - 1 + k : Int) := zpow_le_zpow_right₀ (by norm_num) (by omega)
      _ = 10 ^ (digitCount d - 1 : Int) * 10 ^ k := zpow_add₀ (by norm_num) _ _
      _ ≤ d * 10 ^ k := mul_le_mul_of_nonneg_right (ten_zpow_digitCount_le hd) unit.le
    exact (rounds.lt_two_zpow c).not_ge power

theorem RoundsTo.nearest_eq (rounds : RoundsTo (d * 10 ^ k) m q) (c : IsCanonical m q)
    (hd : 0 < d) : nearest d k = double false c := by
  obtain ⟨least, most⟩ := rounds.digits_range c hd
  rw [nearest, if_neg hd.ne', if_neg (by omega), if_neg (by omega), ofScientific_eq c hd rounds]

end Stencil.Decimal
