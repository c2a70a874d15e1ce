import Mathlib
import Stencil.Decimal.Shortest

/-!
# Rounding to the nearest double

A rational number in the rounding interval of a double rounds to this double.  Rounding keeps what
it drops of a mantissa in two bits behind it, which tell where the number lies between two mantissas;
half of the number has bits of the same meaning.
-/

namespace Stencil.Decimal

open Float.Model Float.Model.UnpackedFloat

/-- The mantissa and the exponent of a double that is finite and not zero. -/
structure IsCanonical (m : Nat) (q : Int) : Prop where
  positive : 0 < m
  bounded : m < 2 ^ 53
  least : -1074 ≤ q
  greatest : q ≤ 971
  normal : 2 ^ 52 ≤ m ∨ q = -1074

/-- That `x` lies in the rounding interval of `m · 2 ^ q`; the ends belong to it iff `m` is even. -/
structure RoundsTo (x : ℚ) (m : Nat) (q : Int) : Prop where
  low : (roundingBounds m q).1 * (2 : ℚ) ^ (q - 2) ≤ x
  high : x ≤ (roundingBounds m q).2 * (2 : ℚ) ^ (q - 2)
  inside : m % 2 = 1 → (roundingBounds m q).1 * (2 : ℚ) ^ (q - 2) < x ∧
    x < (roundingBounds m q).2 * (2 : ℚ) ^ (q - 2)

/-- That `r` is the whole number nearest to `x`, the even one if two are. -/
structure IsNear (x : ℚ) (r : Nat) : Prop where
  low : r ≤ x + 1 / 2
  high : x ≤ r + 1 / 2
  inside : r % 2 = 1 → r < x + 1 / 2 ∧ x < r + 1 / 2

theorem zpow_two_add (p : Int) (n : Nat) : (2 : ℚ) ^ (p + n) = 2 ^ n * 2 ^ p := by
  rw [zpow_add₀ two_ne_zero, zpow_natCast, mul_comm]

theorem zpow_eq_quarters (q : Int) : (2 : ℚ) ^ q = 4 * 2 ^ (q - 2) := by
  have split := zpow_two_add (q - 2) 2
  norm_num at split
  exact split

/-! ## Extended mantissas -/

/-- The numbers that a mantissa with its two further bits stands for. -/
def Stands (em : ExtendedMantissa) (x : ℚ) : Prop :=
  match em.roundBit, em.stickyBit with
  | false, false => x = em.mantissa
  | false, true => em.mantissa < x ∧ x < em.mantissa + 1 / 2
  | true, false => x = em.mantissa + 1 / 2
  | true, true => em.mantissa + 1 / 2 < x ∧ x < em.mantissa + 1

theorem stands_fraction (n : Nat) {d : Nat} (hd : 0 < d) :
    Stands (.ofMantissaAndAccuracy (n / d) (accuracyOfFraction (n % d) d)) (n / d : ℚ) := by
  have positive : (0 : ℚ) < d := by exact_mod_cast hd
  have parts : (n : ℚ) / d = (n / d : Nat) + (n % d : Nat) / d := by
    field_simp
    exact_mod_cast (Nat.div_add_mod n d).symm
  have small : ((n % d : Nat) : ℚ) < d := by exact_mod_cast Nat.mod_lt n hd
  rw [parts]
  generalize n / d = a at *
  generalize n % d = r at *
  unfold accuracyOfFraction
  by_cases exact : r = 0
  · rw [if_pos exact]
    simp [Stands, ExtendedMantissa.ofMantissaAndAccuracy, exact]
  · rw [if_neg exact]
    have rest : (0 : ℚ) < r := by exact_mod_cast Nat.pos_of_ne_zero exact
    rcases h : compare (2 * r) d with _ | _ | _
    · have half : (2 : ℚ) * r < d := by exact_mod_cast Nat.compare_eq_lt.1 h
      have less : (r : ℚ) / d < 1 / 2 := by rw [div_lt_div_iff₀ positive two_pos]; linarith
      have more : 0 < (r : ℚ) / d := div_pos rest positive
      simp only [Stands, ExtendedMantissa.ofMantissaAndAccuracy]
      constructor <;> linarith
    · have half : (2 : ℚ) * r = d := by exact_mod_cast Nat.compare_eq_eq.1 h
      have same : (r : ℚ) / d = 1 / 2 := by rw [div_eq_div_iff positive.ne' two_ne_zero]; linarith
      simp only [Stands, ExtendedMantissa.ofMantissaAndAccuracy, same]
    · have half : (d : ℚ) < 2 * r := by exact_mod_cast Nat.compare_eq_gt.1 h
      have more : 1 / 2 < (r : ℚ) / d := by rw [div_lt_div_iff₀ two_pos positive]; linarith
      have less : (r : ℚ) / d < 1 := by rw [div_lt_one positive]; exact small
      simp only [Stands, ExtendedMantissa.ofMantissaAndAccuracy]
      constructor <;> linarith

namespace Stands

variable {em : ExtendedMantissa} {x : ℚ}

theorem exact (m : Nat) : Stands (.ofMantissaAndAccuracy m .exact) m := rfl

theorem shiftRightOne (h : Stands em x) : Stands em.shiftRightOne (x / 2) := by
  obtain ⟨m, roundBit, stickyBit⟩ := em
  have parts : (m : ℚ) = 2 * (m / 2 : Nat) + (m % 2 : Nat) := by
    exact_mod_cast (Nat.div_add_mod m 2).symm
  rcases Nat.mod_two_eq_zero_or_one m with last | last
  · have bit : (m % 2 != 0) = false := by simp [last]
    rw [last] at parts
    cases roundBit <;> cases stickyBit <;>
      simp only [Stands, ExtendedMantissa.shiftRightOne, bit, parts, Bool.or_false, Bool.or_true,
        Nat.cast_zero, add_zero] at h ⊢ <;>
      first | linarith | constructor <;> linarith
  · have bit : (m % 2 != 0) = true := by simp [last]
    rw [last] at parts
    cases roundBit <;> cases stickyBit <;>
      simp only [Stands, ExtendedMantissa.shiftRightOne, bit, parts, Bool.or_false, Bool.or_true,
        Nat.cast_one] at h ⊢ <;>
      first | linarith | constructor <;> linarith

theorem shiftRight (h : Stands em x) (k : Nat) : Stands (em >>> k) (x / 2 ^ k) := by
  induction k with
  | zero =>
    rw [pow_zero, div_one]
    exact h
  | succ k ih =>
    rw [pow_succ, ← div_div]
    exact ih.shiftRightOne

theorem bounds (h : Stands em x) : em.mantissa ≤ x ∧ x < em.mantissa + 1 := by
  obtain ⟨m, roundBit, stickyBit⟩ := em
  cases roundBit <;> cases stickyBit <;> simp only [Stands] at h ⊢ <;>
    constructor <;> linarith

/-- A mantissa rounds to the whole number that is nearest, in the middle of two to the even one. -/
theorem roundedMantissa_eq (h : Stands em x) {r : Nat} (near : IsNear x r) :
    em.roundedMantissa = r := by
  obtain ⟨m, roundBit, stickyBit⟩ := em
  obtain ⟨low, high, inside⟩ := near
  cases roundBit <;> cases stickyBit <;>
    simp only [Stands, ExtendedMantissa.roundedMantissa, ExtendedMantissa.accuracy,
      Accuracy.roundToNearestEven] at h ⊢
  · have least : 2 * r ≤ 2 * m + 1 := by exact_mod_cast (by linarith : (2 * r : ℚ) ≤ 2 * m + 1)
    have most : 2 * m ≤ 2 * r + 1 := by exact_mod_cast (by linarith : (2 * m : ℚ) ≤ 2 * r + 1)
    omega
  · have least : r < m + 1 := by exact_mod_cast (by linarith : (r : ℚ) < m + 1)
    have most : 2 * m < 2 * r + 1 := by exact_mod_cast (by linarith : (2 * m : ℚ) < 2 * r + 1)
    omega
  · have least : r ≤ m + 1 := by exact_mod_cast (by linarith : (r : ℚ) ≤ m + 1)
    have most : m ≤ r := by exact_mod_cast (by linarith : (m : ℚ) ≤ r)
    rcases Nat.mod_two_eq_zero_or_one r with even | odd
    · omega
    · obtain ⟨low, high⟩ := inside odd
      have least : r < m + 1 := by exact_mod_cast (by linarith : (r : ℚ) < m + 1)
      have most : m < r := by exact_mod_cast (by linarith : (m : ℚ) < r)
      omega
  · have least : 2 * r < 2 * m + 3 := by exact_mod_cast (by linarith : (2 * r : ℚ) < 2 * m + 3)
    have most : m < r := by exact_mod_cast (by linarith : (m : ℚ) < r)
    omega

end Stands

/-! ## Intervals -/

theorem roundingBounds_low {m : Nat} (q : Int) (h : 0 < m) :
    (4 * m - 2 : ℚ) ≤ (roundingBounds m q).1 := by
  have low : 4 * m ≤ (roundingBounds m q).1 + 2 := by
    unfold roundingBounds
    dsimp only
    split <;> omega
  have low' : (4 * m : ℚ) ≤ (roundingBounds m q).1 + 2 := by exact_mod_cast low
  linarith

theorem roundingBounds_high (m : Nat) (q : Int) : ((roundingBounds m q).2 : ℚ) = 4 * m + 2 := by
  simp [roundingBounds]

namespace RoundsTo

variable {x : ℚ} {m : Nat} {q : Int}

/-- The interval is no wider than that of the numbers to which `m` is the nearest whole one. -/
theorem isNear (h : RoundsTo x m q) (c : IsCanonical m q) : IsNear (x / 2 ^ q) m := by
  have unit : (0 : ℚ) < 2 ^ (q - 2) := by positivity
  obtain ⟨low, high, inside⟩ := h
  have least := roundingBounds_low q c.positive
  rw [roundingBounds_high] at high inside
  generalize ((roundingBounds m q).1 : ℚ) = l at *
  have scaled : x = x / 2 ^ q * (4 * 2 ^ (q - 2)) := by
    rw [← zpow_eq_quarters, div_mul_cancel₀]
    positivity
  generalize x / 2 ^ q = y at *
  subst scaled
  generalize (2 : ℚ) ^ (q - 2) = u at *
  refine ⟨by nlinarith, by nlinarith, fun odd => ?_⟩
  obtain ⟨low, high⟩ := inside odd
  exact ⟨by nlinarith, by nlinarith⟩

theorem lt_zpow (h : RoundsTo x m q) (c : IsCanonical m q) : x < 2 ^ (q + 53) := by
  have unit : (0 : ℚ) < 2 ^ (q - 2) := by positivity
  have power : (2 : ℚ) ^ (q + 53) = 2 ^ 55 * 2 ^ (q - 2) := by
    rw [← zpow_two_add]
    congr 1
    ring
  have bounded : (m : ℚ) + 1 ≤ 2 ^ 53 := by exact_mod_cast c.bounded
  have high := h.high
  rw [roundingBounds_high] at high
  rw [power]
  nlinarith

/--
Either the number has as many bits as the double, or it lies below a power of two to which it rounds
from the denser doubles below.
-/
theorem normal_or_below (h : RoundsTo x m q) (c : IsCanonical m q) :
    (2 ^ (q + 52) ≤ x ∨ q = -1074) ∨
      m = 2 ^ 52 ∧ -1074 < q ∧ x < 2 ^ (q + 52) ∧ 2 ^ (q - 1 + 52) ≤ x ∧
        IsNear (x / 2 ^ (q - 1)) (2 ^ 53) := by
  have unit : (0 : ℚ) < 2 ^ (q - 2) := by positivity
  have power (n : Nat) (p : Int) (hp : p = q - 2 + n) : (2 : ℚ) ^ p = 2 ^ n * 2 ^ (q - 2) := by
    rw [hp, zpow_two_add]
  rw [power 54 (q + 52) (by omega), power 53 (q - 1 + 52) (by omega), power 1 (q - 1) (by omega)]
  by_cases least : q = -1074
  · exact .inl (.inr least)
  by_cases normal : 2 ^ 54 * 2 ^ (q - 2) ≤ x
  · exact .inl (.inl normal)
  rw [not_le] at normal
  have more : -1074 < q := lt_of_le_of_ne c.least (Ne.symm least)
  have above : (2 ^ 52 : ℚ) ≤ m := by exact_mod_cast c.normal.resolve_right least
  obtain ⟨low, high, inside⟩ := h
  have lowest := roundingBounds_low q c.positive
  obtain rfl : m = 2 ^ 52 := by
    have small : (m : ℚ) < 2 ^ 52 + 1 := by nlinarith
    have : m < 2 ^ 52 + 1 := by exact_mod_cast small
    have : 2 ^ 52 ≤ m := by exact_mod_cast above
    omega
  have bound : (roundingBounds (2 ^ 52) q).1 = 2 ^ 54 - 1 := by
    simp [roundingBounds, hiddenBit, more]
  rw [bound] at low
  refine .inr ⟨rfl, more, normal, ?_, ?_, ?_, by norm_num⟩
  · push_cast at low
    nlinarith
  · rw [← sub_le_iff_le_add, le_div_iff₀ (by positivity)]
    push_cast at low ⊢
    linarith
  · rw [div_le_iff₀ (by positivity)]
    push_cast
    linarith

end RoundsTo

/-! ## Shifts -/

variable {m : Nat} {e t : Int} {a : Accuracy}

theorem targetExponent_eq (m : Nat) (e : Int) :
    Format.binary64.targetExponent (totalExponent m e) = max (m.log2 + e - 52) (-1074) := by
  have size : (Format.binary64.mantissaBits : Int) = 53 := rfl
  have least : Format.binary64.minExponent = -1074 := rfl
  rw [Format.targetExponent, totalExponent, size, least]
  congr 1
  omega

theorem shiftToTargetExponent_eq
    (target : Format.binary64.targetExponent (totalExponent m e) = t) (h : e ≤ t) :
    shiftToTargetExponent Format.binary64 m e a =
      (ExtendedMantissa.ofMantissaAndAccuracy m a >>> (t - e).toNat, t) := by
  rw [shiftToTargetExponent, target, shiftToExponent, Int.toNat_of_nonneg (by omega)]
  congr 1
  omega

theorem log2_add_lt {x : ℚ} {p : Int} (hm : m ≠ 0) (low : m ≤ x / 2 ^ e) (h : x < 2 ^ p) :
    m.log2 + e < p := by
  have unit : (0 : ℚ) < 2 ^ e := by positivity
  have bits : (2 : ℚ) ^ (m.log2 : Int) ≤ m := by
    rw [zpow_natCast]
    exact_mod_cast Nat.log2_self_le hm
  have less : (2 : ℚ) ^ (m.log2 + e : Int) < 2 ^ p := by
    rw [zpow_add₀ two_ne_zero]
    refine lt_of_le_of_lt ?_ h
    rw [← le_div_iff₀ unit]
    exact bits.trans low
  exact (zpow_lt_zpow_iff_right₀ one_lt_two).1 less

theorem le_log2_add {x : ℚ} {p : Int} (he : e ≤ p) (high : x / 2 ^ e < m + 1)
    (h : 2 ^ p ≤ x) : p ≤ m.log2 + e := by
  have unit : (0 : ℚ) < 2 ^ e := by positivity
  obtain ⟨n, rfl⟩ : ∃ n : Nat, p = e + n := ⟨(p - e).toNat, by omega⟩
  rw [zpow_two_add, ← le_div_iff₀ unit] at h
  have bits : 2 ^ n < m + 1 := by exact_mod_cast h.trans_lt high
  have positive : 0 < 2 ^ n := Nat.two_pow_pos n
  have most : n ≤ m.log2 := (Nat.le_log2 (by omega)).2 (by omega)
  omega

/-! ## Rounding -/

theorem IsCanonical.target {q : Int} (c : IsCanonical m q) :
    Format.binary64.targetExponent (totalExponent m q) = q := by
  rw [targetExponent_eq]
  have bounded : m.log2 < 53 := (Nat.log2_lt c.positive.ne').2 c.bounded
  have least := c.least
  rcases c.normal with normal | rfl
  · have most : 52 ≤ m.log2 := (Nat.le_log2 c.positive.ne').2 normal
    omega
  · omega

variable {sign : Sign} {x : ℚ} {q : Int} {n r : Nat} {em : ExtendedMantissa}

theorem roundWithAccuracy_of_isNear (hm : 0 < m)
    (stands : Stands (.ofMantissaAndAccuracy n a) (x / 2 ^ e))
    (target : Format.binary64.targetExponent (totalExponent n e) = t) (enough : e ≤ t)
    (near : IsNear (x / 2 ^ t) r)
    (again : shiftToTargetExponent Format.binary64 r t .exact = (em, q))
    (mantissa : em.mantissa = m) :
    roundWithAccuracy Format.binary64 sign n e a = .finite sign m q hm := by
  have shifted := stands.shiftRight (t - e).toNat
  have power : (2 : ℚ) ^ e * 2 ^ (t - e).toNat = 2 ^ t := by
    rw [mul_comm, ← zpow_two_add]
    congr 1
    omega
  rw [div_div, power] at shifted
  subst mantissa
  simp only [roundWithAccuracy, shiftToTargetExponent_eq target enough,
    shifted.roundedMantissa_eq near, again, hm.ne', dite_false]

/-- A number in the rounding interval of a double rounds to this double. -/
theorem roundWithAccuracy_eq (c : IsCanonical m q) (rounds : RoundsTo x m q)
    (stands : Stands (.ofMantissaAndAccuracy n a) (x / 2 ^ e))
    (enough : e ≤ Format.binary64.targetExponent (totalExponent n e)) :
    roundWithAccuracy Format.binary64 sign n e a = .finite sign m q c.positive := by
  have least := c.least
  obtain ⟨low, high⟩ : (n : ℚ) ≤ x / 2 ^ e ∧ x / 2 ^ e < n + 1 := by
    have bounds := stands.bounds
    rcases a with _ | (_ | _ | _) <;> exact bounds
  have above {p : Int} (hp : -1021 ≤ p) (h : x < 2 ^ p) :
      Format.binary64.targetExponent (totalExponent n e) ≤ p - 53 := by
    rw [targetExponent_eq] at enough ⊢
    by_cases zero : n = 0
    · rw [zero, Nat.log2_zero] at enough ⊢
      omega
    · have := log2_add_lt zero low h
      omega
  rcases rounds.normal_or_below c with normal | ⟨rfl, more, small, large, near⟩
  · have target : Format.binary64.targetExponent (totalExponent n e) = q := by
      have most := above (by omega) (rounds.lt_zpow c)
      rw [targetExponent_eq] at enough most ⊢
      rcases normal with large | rfl
      · have := le_log2_add (by omega) high large
        omega
      · omega
    exact roundWithAccuracy_of_isNear c.positive stands target (target ▸ enough) (rounds.isNear c)
      (shiftToTargetExponent_eq c.target le_rfl) (by simp; rfl)
  · have target : Format.binary64.targetExponent (totalExponent n e) = q - 1 := by
      have most := above (by omega) small
      rw [targetExponent_eq] at enough most ⊢
      have := le_log2_add (by omega) high large
      omega
    have again : Format.binary64.targetExponent (totalExponent (2 ^ 53) (q - 1)) = q := by
      rw [targetExponent_eq, Nat.log2_two_pow]
      omega
    refine roundWithAccuracy_of_isNear c.positive stands target (target ▸ enough) near
      (shiftToTargetExponent_eq again (by omega)) ?_
    have one : (q - (q - 1)).toNat = 1 := by omega
    rw [one]
    rfl

theorem mul_eq {m₁ m₂ : Nat} {e₁ e₂ : Int} {s₁ s₂ : Sign} {h₁ : 0 < m₁} {h₂ : 0 < m₂}
    (c : IsCanonical m q) (rounds : RoundsTo (m₁ * 2 ^ e₁ * (m₂ * 2 ^ e₂)) m q)
    (enough : 2 ^ 52 ≤ m₁ * m₂) :
    mul Format.binary64 (.finite s₁ m₁ e₁ h₁) (.finite s₂ m₂ e₂ h₂) =
      .finite (s₁ * s₂) m q c.positive := by
  refine roundWithAccuracy_eq c rounds ?_ ?_
  · have value : (m₁ * 2 ^ e₁ * (m₂ * 2 ^ e₂) : ℚ) / 2 ^ (e₁ + e₂) = (m₁ * m₂ : Nat) := by
      rw [zpow_add₀ two_ne_zero]
      push_cast
      field_simp
    rw [value]
    exact Stands.exact _
  · have bits : 52 ≤ (m₁ * m₂).log2 := (Nat.le_log2 (by positivity)).2 enough
    rw [targetExponent_eq]
    omega

theorem div_eq {m₁ m₂ : Nat} {e₁ e₂ : Int} {s₁ s₂ : Sign} {h₁ : 0 < m₁} {h₂ : 0 < m₂}
    (c : IsCanonical m q) (rounds : RoundsTo (m₁ * 2 ^ e₁ / (m₂ * 2 ^ e₂)) m q) :
    div Format.binary64 (.finite s₁ m₁ e₁ h₁) (.finite s₂ m₂ e₂ h₂) =
      .finite (s₁ / s₂) m q c.positive := by
  let least := min (e₁ - e₂)
    (Format.binary64.targetExponent (totalExponent m₁ e₁ - totalExponent m₂ e₂))
  let k := (e₁ - e₂ - least).toNat
  change roundWithAccuracy Format.binary64 _ ((m₁ <<< k) / m₂) least
    (accuracyOfFraction ((m₁ <<< k) % m₂) m₂) = _
  have shift : least + k = e₁ - e₂ := by
    have most : least ≤ e₁ - e₂ := min_le_left _ _
    omega
  have bits : least ≤ max (m₁.log2 + e₁ - (m₂.log2 + e₂) - 53) (-1074) := by
    have size : (Format.binary64.mantissaBits : Int) = 53 := rfl
    have minimum : Format.binary64.minExponent = -1074 := rfl
    refine (min_le_right _ _).trans ?_
    rw [Format.targetExponent, totalExponent, totalExponent, size, minimum]
    omega
  rw [Nat.shiftLeft_eq]
  refine roundWithAccuracy_eq c rounds ?_ ?_
  · have divisor : (m₂ : ℚ) ≠ 0 := by exact_mod_cast h₂.ne'
    have value : (m₁ * 2 ^ e₁ / (m₂ * 2 ^ e₂) : ℚ) / 2 ^ least = (m₁ * 2 ^ k : Nat) / m₂ := by
      have power : (2 : ℚ) ^ e₁ = 2 ^ k * 2 ^ least * 2 ^ e₂ := by
        rw [← zpow_two_add, shift, ← zpow_add₀ two_ne_zero]
        congr 1
        omega
      rw [power]
      push_cast
      field_simp
    rw [value]
    exact stands_fraction _ h₂
  · rw [targetExponent_eq]
    rcases le_max_iff.1 bits with many | few
    · have enough : 52 ≤ (m₁ * 2 ^ k / m₂).log2 := by
        have wide : 2 ^ 52 ≤ m₁ * 2 ^ k / m₂ := by
          rw [Nat.le_div_iff_mul_le h₂]
          calc 2 ^ 52 * m₂ ≤ 2 ^ 52 * 2 ^ (m₂.log2 + 1) :=
                Nat.mul_le_mul_left _ Nat.lt_log2_self.le
            _ = 2 ^ (m₂.log2 + 53) := by rw [← Nat.pow_add]; congr 1; omega
            _ ≤ 2 ^ (m₁.log2 + k) := Nat.pow_le_pow_right two_pos (by omega)
            _ = 2 ^ m₁.log2 * 2 ^ k := Nat.pow_add _ _ _
            _ ≤ m₁ * 2 ^ k := Nat.mul_le_mul_right _ (Nat.log2_self_le h₁.ne')
        exact (Nat.le_log2 (by omega)).2 wide
      omega
    · omega

end Stencil.Decimal
