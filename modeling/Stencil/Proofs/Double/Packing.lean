import Mathlib
import Stencil.Decimal.Binary
import Stencil.Proofs.Double.Rounding

/-!
# The bits of a double

A finite double that is not zero has canonical parts, and packing the parts gives the double back.
-/

namespace Stencil.Decimal

open Float.Model Float.Model.UnpackedFloat

def signOf (negative : Bool) : Sign := if negative then .negative else .positive

/-- The double `± m · 2 ^ q`. -/
def double (negative : Bool) {m : Nat} {q : Int} (c : IsCanonical m q) : Float :=
  .ofModel (.pack (.finite (signOf negative) m q c.positive))

variable {m : Nat} {q : Int} {s : Sign}

theorem toNat_packComponents (s : Sign) (e : BitVec 11) (f : BitVec 52) :
    (packComponents Format.binary64 s e f).toNat =
      s.toBitVec.toNat * 2 ^ 63 + e.toNat * 2 ^ 52 + f.toNat := by
  change (s.toBitVec ++ e ++ f).toNat = _
  rw [BitVec.toNat_append, ← Nat.shiftLeft_add_eq_or_of_lt f.isLt, BitVec.toNat_append,
    ← Nat.shiftLeft_add_eq_or_of_lt e.isLt]
  simp only [Nat.shiftLeft_eq]
  ring

theorem unpackSign_packComponents (s : Sign) (e : BitVec 11) (f : BitVec 52) :
    @unpackSign Format.binary64 (packComponents Format.binary64 s e f) = s.toBitVec := by
  apply BitVec.eq_of_toNat_eq
  rw [unpackSign, BitVec.toNat_cast, BitVec.extractLsb_toNat, toNat_packComponents]
  have few := s.toBitVec.isLt
  have he := e.isLt
  have hf := f.isLt
  simp only [Nat.shiftRight_eq_div_pow]
  omega

theorem IsCanonical.pack_eq (c : IsCanonical m q) :
    UnpackedFloat.pack Format.binary64 (.finite s m q c.positive) =
      if 2 ^ 52 ≤ m then
        packComponents Format.binary64 s (BitVec.ofNat 11 (q + 1075).toNat) (BitVec.ofNat 52 m)
      else packComponents Format.binary64 s 0#11 (BitVec.ofNat 52 m) := by
  obtain ⟨positive, bounded, least, greatest, normal⟩ := c
  have bias : (q + Format.binary64.exponentBias + (52 : Nat) : Int) = q + 1075 := by
    have value : Format.binary64.exponentBias = 1023 := rfl
    rw [value]
    omega
  have fits : ¬ 2 ^ 11 ≤ (q + 1075).toNat + 1 := by omega
  have size : Format.binary64.mantissaBits = 53 := rfl
  have bits : m.log2 + 1 = 53 ↔ 2 ^ 52 ≤ m := by
    rw [← Nat.le_log2 positive.ne']
    have most : m.log2 < 53 := (Nat.log2_lt positive.ne').2 bounded
    omega
  rw [UnpackedFloat.pack]
  dsimp only
  rw [bias, if_neg fits, size]
  simp only [bits]

theorem unpack_pack (c : IsCanonical m q) :
    (Float.Model.pack (.finite s m q c.positive)).unpack = .finite s m q c.positive := by
  have sign : Sign.ofBitVec s.toBitVec = s := by cases s <;> rfl
  have bias : ((Format.binary64.exponentBias : Nat) : Int) = 1023 := rfl
  change UnpackedFloat.unpack Format.binary64 (UnpackedFloat.pack Format.binary64 _) = _
  rw [c.pack_eq]
  obtain ⟨positive, bounded, least, greatest, normal⟩ := c
  split
  · rename_i large
    have field : (BitVec.ofNat 11 (q + 1075).toNat).toNat = (q + 1075).toNat := by
      rw [BitVec.toNat_ofNat, Nat.mod_eq_of_lt (by omega)]
    have finite : BitVec.ofNat 11 (q + 1075).toNat ≠ -1#11 := by
      intro h
      have := congrArg BitVec.toNat h
      rw [field] at this
      change _ = 2047 at this
      omega
    have normal : BitVec.ofNat 11 (q + 1075).toNat ≠ 0#11 := by
      intro h
      have := congrArg BitVec.toNat h
      rw [field] at this
      change _ = 0 at this
      omega
    have mantissa : (1#1 ++ BitVec.ofNat 52 m).toNat = m := by
      rw [BitVec.toNat_append, ← Nat.shiftLeft_add_eq_or_of_lt (BitVec.isLt _), BitVec.toNat_ofNat]
      simp only [BitVec.toNat_ofNat, Nat.shiftLeft_eq]
      omega
    simp only [UnpackedFloat.unpack, unpackMantissa_packComponents, unpackExponent_packComponents,
      unpackSign_packComponents, finite, normal, if_false, field, mantissa, sign, bias]
    congr 1
    omega
  · rename_i small
    obtain rfl := normal.resolve_left small
    have mantissa : (BitVec.ofNat 52 m).toNat = m := by
      rw [BitVec.toNat_ofNat, Nat.mod_eq_of_lt (by omega)]
    have filled : BitVec.ofNat 52 m ≠ 0#52 := by
      intro h
      have := congrArg BitVec.toNat h
      rw [mantissa] at this
      change _ = 0 at this
      omega
    have finite : 0#11 ≠ -1#11 := by decide
    simp only [UnpackedFloat.unpack, unpackMantissa_packComponents, unpackExponent_packComponents,
      unpackSign_packComponents, finite, filled, if_false, if_true, dite_false, mantissa, sign,
      bias]
    congr 1

theorem neg_double (c : IsCanonical m q) : -double false c = double true c := by
  change Float.ofModel (.pack (UnpackedFloat.neg (Float.Model.pack _).unpack)) = _
  rw [unpack_pack c]
  rfl

/-! ## Parts -/

theorem toNat_signOf {n : Nat} (h : n < 2 ^ 64) :
    (signOf (signBit n)).toBitVec.toNat = n / 2 ^ 63 := by
  have one : n / 2 ^ 63 = 0 ∨ n / 2 ^ 63 = 1 := by omega
  unfold signBit
  change (signOf (n / 2 ^ 63 % 2 == 1)).toBitVec.toNat = n / 2 ^ 63
  rcases one with zero | one
  · rw [zero]
    rfl
  · rw [one]
    rfl

/-- The fields of the bits of a finite double. -/
theorem ofBits_eq {n : Nat} {negative : Bool} (h : Parts.ofBits n = .finite negative m q) :
    negative = signBit n ∧ n / 2 ^ 52 % 2048 ≠ 2047 ∧
      (if n / 2 ^ 52 % 2048 = 0 then m = n % 2 ^ 52 ∧ q = -1074
        else m = 2 ^ 52 + n % 2 ^ 52 ∧ q = (n / 2 ^ 52 % 2048 : Nat) - 1075) := by
  have hidden : hiddenBit = 2 ^ 52 := rfl
  unfold Parts.ofBits at h
  rw [hidden] at h
  dsimp only at h
  split at h
  · split at h <;> simp at h
  · rename_i finite
    split at h <;> simp_all

theorem exists_double {x : Float} {negative : Bool} (h : parts x = .finite negative m q)
    (hm : 0 < m) : ∃ c : IsCanonical m q, x = double negative c := by
  have bound : x.toBits.toNat < 2 ^ 64 := x.toBits.toNat_lt
  obtain ⟨sign, finite, fields⟩ := ofBits_eq h
  have c : IsCanonical m q := by
    split at fields
    · obtain ⟨rfl, rfl⟩ := fields
      exact ⟨hm, by omega, le_rfl, by omega, .inr rfl⟩
    · obtain ⟨rfl, rfl⟩ := fields
      exact ⟨hm, by omega, by omega, by omega, .inl (by omega)⟩
  have top := toNat_signOf bound
  rw [← sign] at top
  have bits : UnpackedFloat.pack Format.binary64 (.finite (signOf negative) m q c.positive) =
      x.toBits.toBitVec := by
    apply BitVec.eq_of_toNat_eq
    change _ = x.toBits.toNat
    rw [c.pack_eq]
    split
    · rw [toNat_packComponents, top, BitVec.toNat_ofNat, BitVec.toNat_ofNat]
      split at fields <;> omega
    · rw [toNat_packComponents, top, BitVec.toNat_ofNat, BitVec.toNat_ofNat]
      split at fields <;> omega
  obtain ⟨⟨word, valid⟩⟩ := x
  refine ⟨c, congrArg Float.ofModel ?_⟩
  rw [Float.Model.mk.injEq]
  exact (congrArg UInt64.ofBitVec bits).symm

theorem isFinite_double (negative : Bool) (c : IsCanonical m q) :
    isFinite (double negative c) = true := by
  have bits : (double negative c).toBits.toNat =
      (UnpackedFloat.pack Format.binary64 (.finite (signOf negative) m q c.positive)).toNat := rfl
  have hidden : hiddenBit = 2 ^ 52 := rfl
  have field : (double negative c).toBits.toNat / hiddenBit % 2048 ≠ 2047 := by
    rw [bits, hidden, c.pack_eq]
    have greatest := c.greatest
    split
    · rw [toNat_packComponents, BitVec.toNat_ofNat, BitVec.toNat_ofNat]
      omega
    · rw [toNat_packComponents, BitVec.toNat_ofNat]
      omega
  unfold isFinite parts Parts.ofBits
  dsimp only
  rw [if_neg field]
  by_cases least : (double negative c).toBits.toNat / hiddenBit % 2048 = 0
  · rw [if_pos least]
  · rw [if_neg least]

end Stencil.Decimal
