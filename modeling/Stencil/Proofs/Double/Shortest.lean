import Stencil.Proofs.Double.Reading

/-!
# The shortest decimal reads back

The grid of seventeen digits is so fine that one of the two neighbours of a double on it lies in the
rounding interval of the double, so the search for a decimal succeeds.
-/

namespace Stencil.Decimal

variable {m d : Nat} {q k : Int}

/-! ## Quotients -/

namespace Quotient

def value (x : Quotient) : ℚ := x.num / x.den

theorem den_ofBinary (m : Nat) (q : Int) : 0 < (ofBinary m q).den := by
  unfold ofBinary
  split
  · exact Nat.one_pos
  · exact Nat.two_pow_pos _

theorem value_ofBinary (m : Nat) (q : Int) : (ofBinary m q).value = m * 2 ^ q := by
  unfold ofBinary
  split
  · rename_i whole
    obtain ⟨n, rfl⟩ := Int.eq_ofNat_of_zero_le whole
    simp [value]
  · rename_i fraction
    obtain ⟨n, rfl⟩ : ∃ n : Nat, q = -n := ⟨(-q).toNat, by omega⟩
    simp [value, div_eq_mul_inv]

variable {x : Quotient}

theorem den_scaleDown (h : 0 < x.den) (k : Int) : 0 < (x.scaleDown k).den := by
  unfold scaleDown
  split
  · exact Nat.mul_pos h (Nat.pow_pos (by decide))
  · exact h

theorem value_scaleDown (x : Quotient) (k : Int) : (x.scaleDown k).value = x.value / 10 ^ k := by
  unfold scaleDown
  split
  · rename_i whole
    obtain ⟨n, rfl⟩ := Int.eq_ofNat_of_zero_le whole
    simp [value, div_div]
  · rename_i fraction
    obtain ⟨n, rfl⟩ : ∃ n : Nat, k = -n := ⟨(-k).toNat, by omega⟩
    simp [value, mul_div_right_comm]

theorem num_eq (h : 0 < x.den) : (x.num : ℚ) = x.value * x.den := by
  have positive : (x.den : ℚ) ≠ 0 := by exact_mod_cast h.ne'
  rw [value, div_mul_cancel₀ _ positive]

theorem ten_zpow_magnitude_le (h : 0 < x.den) (positive : 0 < x.num) :
    (10 : ℚ) ^ x.magnitude ≤ x.value := by
  unfold magnitude
  dsimp only
  split
  · rename_i enough
    have one : (1 : ℚ) ≤ x.value / 10 ^ (digitCount x.num - digitCount x.den : Int) := by
      have den := den_scaleDown h (digitCount x.num - digitCount x.den)
      rw [← value_scaleDown, value, one_le_div (by exact_mod_cast den)]
      exact_mod_cast enough
    rwa [one_le_div (by positivity)] at one
  · have den : (0 : ℚ) < x.den := by exact_mod_cast h
    rw [value, le_div_iff₀ den]
    calc (10 : ℚ) ^ (digitCount x.num - digitCount x.den - 1 : Int) * x.den
        ≤ 10 ^ (digitCount x.num - digitCount x.den - 1 : Int) * 10 ^ (digitCount x.den : Int) :=
          mul_le_mul_of_nonneg_left (lt_ten_zpow_digitCount _).le (by positivity)
      _ = 10 ^ (digitCount x.num - 1 : Int) := by
          rw [← zpow_add₀ (by norm_num)]
          congr 1
          ring
      _ ≤ x.num := ten_zpow_digitCount_le positive

end Quotient

/-! ## Neighbours on a grid -/

theorem readsBack_iff (m : Nat) (q : Int) (d : Nat) (k : Int) :
    readsBack m q d k = true ↔ RoundsTo (d * 10 ^ k) m q := by
  have den := Quotient.den_scaleDown (Quotient.den_ofBinary 1 (q - 2)) k
  have num := Quotient.num_eq den
  have positive : (0 : ℚ) < ((Quotient.ofBinary 1 (q - 2)).scaleDown k).den := by
    exact_mod_cast den
  have unit : (0 : ℚ) < 10 ^ k := by positivity
  rw [Quotient.value_scaleDown, Quotient.value_ofBinary, Nat.cast_one, one_mul] at num
  unfold readsBack
  dsimp only
  generalize ((Quotient.ofBinary 1 (q - 2)).scaleDown k).num = n at *
  generalize ((Quotient.ofBinary 1 (q - 2)).scaleDown k).den = e at *
  have cast (a : Nat) : ((a * n : Nat) : ℚ) = a * 2 ^ (q - 2) * (e / 10 ^ k) := by
    rw [Nat.cast_mul, num]
    ring
  have cast' (b : Nat) : ((b * e : Nat) : ℚ) = b * 10 ^ k * (e / 10 ^ k) := by
    rw [Nat.cast_mul]
    field_simp
  have scale : (0 : ℚ) < e / 10 ^ k := div_pos positive unit
  have le {a b : ℚ} : a * (e / 10 ^ k) ≤ b * (e / 10 ^ k) ↔ a ≤ b := mul_le_mul_iff_left₀ scale
  have lt {a b : ℚ} : a * (e / 10 ^ k) < b * (e / 10 ^ k) ↔ a < b := mul_lt_mul_iff_left₀ scale
  rcases Nat.mod_two_eq_zero_or_one m with even | odd
  · rw [if_pos even, Bool.and_eq_true, decide_eq_true_eq, decide_eq_true_eq, ← @Nat.cast_le ℚ,
      ← @Nat.cast_le ℚ, cast, cast, cast', le, le]
    exact ⟨fun h => ⟨h.1, h.2, fun odd => by omega⟩, fun h => ⟨h.low, h.high⟩⟩
  · rw [if_neg (by omega), Bool.and_eq_true, decide_eq_true_eq, decide_eq_true_eq,
      ← @Nat.cast_lt ℚ, ← @Nat.cast_lt ℚ, cast, cast, cast', lt, lt]
    exact ⟨fun h => ⟨h.1.le, h.2.le, fun _ => h⟩, fun h => h.inside odd⟩

theorem onGrid?_spec {s : Scientific} (h : onGrid? m q k = some s) :
    0 < s.digits ∧ readsBack m q s.digits s.exponent = true := by
  unfold onGrid? at h
  dsimp only at h
  generalize ((Quotient.ofBinary m q).scaleDown k).num /
    ((Quotient.ofBinary m q).scaleDown k).den = d at *
  split at h
  · rename_i both
    simp only [Bool.and_eq_true, decide_eq_true_eq] at both
    obtain rfl := Option.some.inj h
    dsimp only
    split
    · exact ⟨Nat.pos_of_ne_zero both.1.1, both.1.2⟩
    · exact ⟨Nat.succ_pos _, both.2⟩
  · split at h
    · rename_i lower
      simp only [Bool.and_eq_true, decide_eq_true_eq] at lower
      obtain rfl := Option.some.inj h
      exact ⟨Nat.pos_of_ne_zero lower.1, lower.2⟩
    · split at h
      · rename_i upper
        obtain rfl := Option.some.inj h
        exact ⟨Nat.succ_pos _, upper⟩
      · simp at h

theorem RoundsTo.of_lt {x : ℚ} (low : (roundingBounds m q).1 * (2 : ℚ) ^ (q - 2) < x)
    (high : x < (roundingBounds m q).2 * (2 : ℚ) ^ (q - 2)) : RoundsTo x m q :=
  ⟨low.le, high.le, fun _ => ⟨low, high⟩⟩

/-- On a grid that is fine enough, one of the two neighbours lies in the rounding interval. -/
theorem roundsTo_neighbour {u : ℚ} {a : Nat} (c : IsCanonical m q)
    (low : a * u ≤ m * 2 ^ q) (high : m * 2 ^ q < (a + 1) * u)
    (fine : 10 ^ 16 * u ≤ m * 2 ^ q) : RoundsTo (a * u) m q ∨ RoundsTo ((a + 1) * u) m q := by
  have unit : (0 : ℚ) < 2 ^ (q - 2) := by positivity
  have least := roundingBounds_low q c.positive
  have most := roundingBounds_high m q
  rw [zpow_eq_quarters] at low high fine
  by_cases boundary : m = hiddenBit ∧ -1074 < q
  · -- the interval is short below, but the grid is finer than its upper half
    obtain ⟨rfl, more⟩ := boundary
    have bound : ((roundingBounds hiddenBit q).1 : ℚ) = 2 ^ 54 - 1 := by
      have : (roundingBounds hiddenBit q).1 = 2 ^ 54 - 1 := by
        simp [roundingBounds, more, hiddenBit]
      rw [this]
      norm_num
    have hidden : (hiddenBit : ℚ) = 2 ^ 52 := by norm_num [hiddenBit]
    rw [hidden] at most low high fine
    refine .inr (.of_lt ?_ ?_)
    · rw [bound]
      linarith
    · rw [most]
      linarith
  · have bound : ((roundingBounds m q).1 : ℚ) = 4 * m - 2 := by
      have : (roundingBounds m q).1 + 2 = 4 * m := by
        have := c.positive
        simp only [roundingBounds, boundary, if_false]
        omega
      rw [eq_sub_iff_add_eq]
      exact_mod_cast this
    have bounded : (m : ℚ) * 2 ^ (q - 2) ≤ 2 ^ 53 * 2 ^ (q - 2) := by
      refine mul_le_mul_of_nonneg_right ?_ unit.le
      exact_mod_cast c.bounded.le
    by_cases near : (m * (4 * 2 ^ (q - 2)) : ℚ) < a * u + 2 * 2 ^ (q - 2)
    · refine .inl (.of_lt ?_ ?_)
      · rw [bound]
        linarith
      · rw [most]
        linarith
    · rw [not_lt] at near
      refine .inr (.of_lt ?_ ?_)
      · rw [bound]
        linarith
      · rw [most]
        linarith

theorem exists_onGrid? (c : IsCanonical m q) (fine : 10 ^ (k + 16) ≤ (m * 2 ^ q : ℚ)) :
    ∃ s, onGrid? m q k = some s := by
  have den := Quotient.den_scaleDown (Quotient.den_ofBinary m q) k
  have num := Quotient.num_eq den
  have positive : (0 : ℚ) < ((Quotient.ofBinary m q).scaleDown k).den := by exact_mod_cast den
  have grid : (0 : ℚ) < 10 ^ k := by positivity
  rw [Quotient.value_scaleDown, Quotient.value_ofBinary] at num
  unfold onGrid?
  dsimp only
  generalize ((Quotient.ofBinary m q).scaleDown k).num = n at *
  generalize ((Quotient.ofBinary m q).scaleDown k).den = e at *
  have low : (n / e : Nat) * 10 ^ k ≤ (m * 2 ^ q : ℚ) := by
    rw [← le_div_iff₀ grid, ← mul_le_mul_iff_left₀ positive, ← num]
    exact_mod_cast Nat.div_mul_le_self n e
  have high : (m * 2 ^ q : ℚ) < ((n / e : Nat) + 1) * 10 ^ k := by
    rw [← div_lt_iff₀ grid, ← mul_lt_mul_iff_left₀ positive, ← num]
    have next : n < (n / e + 1) * e := Nat.mul_comm .. ▸ Nat.lt_mul_div_succ n den
    exact_mod_cast next
  rw [zpow_add₀ (by norm_num), mul_comm] at fine
  have enough : n / e ≠ 0 := by
    intro zero
    rw [zero] at high
    push_cast at high
    linarith
  rcases roundsTo_neighbour c low high fine with lower | upper
  · have lower := (readsBack_iff ..).2 lower
    simp only [enough, lower, ne_eq, not_false_eq_true, decide_true, Bool.true_and, if_true]
    split <;> exact ⟨_, rfl⟩
  · rw [← Nat.cast_succ] at upper
    have upper := (readsBack_iff ..).2 upper
    simp only [upper, Bool.and_true, if_true]
    split <;> exact ⟨_, rfl⟩

/-! ## The shortest decimal -/

def Scientific.value (s : Scientific) : ℚ := s.digits * 10 ^ s.exponent

theorem shortest_spec (c : IsCanonical m q) :
    0 < (shortest m q).digits ∧ RoundsTo (shortest m q).value m q := by
  have den := Quotient.den_ofBinary m q
  have value := Quotient.value_ofBinary m q
  have num : 0 < (Quotient.ofBinary m q).num := by
    have product : (0 : ℚ) < (Quotient.ofBinary m q).num := by
      rw [Quotient.num_eq den, value]
      have := c.positive
      positivity
    exact_mod_cast product
  have least := Quotient.ten_zpow_magnitude_le den num
  have found : ∃ s, (List.range 17).findSome? (fun n : Nat =>
      onGrid? m q ((Quotient.ofBinary m q).magnitude - (n : Int))) = some s := by
    rw [← Option.isSome_iff_exists, List.findSome?_isSome_iff]
    refine ⟨16, by decide, Option.isSome_iff_exists.2 (exists_onGrid? c ?_)⟩
    rw [← value]
    simpa using least
  obtain ⟨s, hs⟩ := found
  obtain ⟨n, -, hn⟩ := List.exists_of_findSome?_eq_some hs
  obtain ⟨positive, reads⟩ := onGrid?_spec hn
  unfold shortest
  dsimp only
  rw [hs]
  exact ⟨positive, (readsBack_iff ..).1 reads⟩

end Stencil.Decimal
