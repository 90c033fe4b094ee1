import Mathlib
import Scriptlet.Number.Text

/-!
# Bit patterns of floats

`Float.ofBits` reads a bit pattern into sign, significand and exponent and writes it again.  Only the patterns of NaN
come out changed.

Principal result: `toBits_ofBits` — the float of a bit pattern without the exponent of NaN has that bit pattern.
-/

set_option autoImplicit false

namespace Scriptlet.Number

open Float.Model.UnpackedFloat

/-! ## Fields -/

section Fields

variable (b : BitVec 64)

theorem toNat_unpackSign : (@unpackSign .binary64 b).toNat = b.toNat / 2 ^ 63 % 2 := by
  simp [unpackSign, BitVec.extractLsb, BitVec.extractLsb', Nat.shiftRight_eq_div_pow]

theorem toNat_unpackExponent : (@unpackExponent .binary64 b).toNat = exponentField b.toNat := by
  simp [unpackExponent, exponentField, BitVec.extractLsb, BitVec.extractLsb', Nat.shiftRight_eq_div_pow]

theorem toNat_unpackMantissa : (@unpackMantissa .binary64 b).toNat = fractionField b.toNat := by
  simp [unpackMantissa, fractionField, BitVec.extractLsb, BitVec.extractLsb']

theorem toNat_sign_ofBitVec (v : BitVec 1) : (Sign.ofBitVec v).toBitVec.toNat = v.toNat := by
  revert v
  decide

theorem toNat_packComponents (sign : Sign) (exponent : BitVec 11) (fraction : BitVec 52) :
    (packComponents .binary64 sign exponent fraction).toNat =
      (sign.toBitVec.toNat * 2 ^ 11 + exponent.toNat) * 2 ^ 52 + fraction.toNat := by
  unfold packComponents
  rw [BitVec.toNat_append, ← Nat.shiftLeft_add_eq_or_of_lt fraction.isLt, BitVec.toNat_append,
    ← Nat.shiftLeft_add_eq_or_of_lt exponent.isLt, Nat.shiftLeft_eq, Nat.shiftLeft_eq]

/-- A bit pattern is made of its fields. -/
theorem packComponents_fields :
    packComponents .binary64 (Sign.ofBitVec (@unpackSign .binary64 b)) (@unpackExponent .binary64 b)
      (@unpackMantissa .binary64 b) = b := by
  have hlt := b.isLt
  apply BitVec.eq_of_toNat_eq
  rw [toNat_packComponents, toNat_sign_ofBitVec, toNat_unpackSign, toNat_unpackExponent, toNat_unpackMantissa]
  simp only [exponentField, fractionField, Nat.pow_eq]
  omega

end Fields

/-! ## Writing what was read -/

/-- The significand of a float with a hidden bit. -/
theorem toNat_hidden_append (fraction : BitVec 52) : (1#1 ++ fraction).toNat = 2 ^ 52 + fraction.toNat := by
  rw [BitVec.toNat_append, ← Nat.shiftLeft_add_eq_or_of_lt fraction.isLt]
  rfl

/-- A significand below the hidden bit is written with a zero exponent. -/
theorem pack_subnormal (sign : Sign) {significand : Nat} (hpos : 0 < significand) (hlt : significand < 2 ^ 52) :
    Float.Model.UnpackedFloat.pack .binary64 (.finite sign significand (-1074) hpos) =
      packComponents .binary64 sign 0 (BitVec.ofNat 52 significand) := by
  have hlog : ¬ significand.log2 + 1 = 53 := by
    have := (Nat.log2_lt (Nat.ne_of_gt hpos)).mpr hlt
    omega
  unfold Float.Model.UnpackedFloat.pack
  exact (if_neg (by decide)).trans (if_neg hlog)

/-- A significand with the hidden bit is written with its exponent and without the bit. -/
theorem pack_normal (sign : Sign) (exponent : Nat) {fraction : BitVec 52} (hhi : exponent < 2047)
    (hpos : 0 < (1#1 ++ fraction).toNat) :
    Float.Model.UnpackedFloat.pack .binary64 (.finite sign (1#1 ++ fraction).toNat (exponent - 1075) hpos) =
      packComponents .binary64 sign (BitVec.ofNat 11 exponent) fraction := by
  have hbiased : ((exponent : Int) - 1075 + 1023 + 52).toNat = exponent := by omega
  have hfits : ¬ 2 ^ 11 ≤ ((exponent : Int) - 1075 + 1023 + 52).toNat + 1 := by omega
  have hlog : (1#1 ++ fraction).toNat.log2 + 1 = 53 := by
    have hlt := fraction.isLt
    have hne := Nat.ne_of_gt hpos
    rw [toNat_hidden_append] at hne ⊢
    have hle : 52 ≤ (2 ^ 52 + fraction.toNat).log2 := (Nat.le_log2 hne).mpr (by omega)
    have hgt : (2 ^ 52 + fraction.toNat).log2 < 53 := (Nat.log2_lt hne).mpr (by omega)
    omega
  have hfraction : BitVec.ofNat 52 (1#1 ++ fraction).toNat = fraction := by
    rw [toNat_hidden_append, BitVec.ofNat_add, BitVec.ofNat_toNat, BitVec.setWidth_eq]
    exact BitVec.zero_add fraction
  unfold Float.Model.UnpackedFloat.pack
  refine (if_neg hfits).trans ((if_pos hlog).trans ?_)
  exact congrArg₂ _ (congrArg _ hbiased) hfraction

/-- A bit pattern without the exponent of NaN is written as it was read. -/
theorem pack_unpack {b : BitVec 64} (h : exponentField b.toNat ≠ 2047) :
    Float.Model.UnpackedFloat.pack .binary64 (Float.Model.UnpackedFloat.unpack .binary64 b) = b := by
  have hself := packComponents_fields b
  rw [← toNat_unpackExponent] at h
  have hfinite : @unpackExponent .binary64 b ≠ -1#11 := fun heq => h (by rw [heq]; rfl)
  refine Eq.trans ?_ hself
  unfold Float.Model.UnpackedFloat.unpack
  simp only
  rw [if_neg hfinite]
  split
  · rename_i hzero
    rw [hzero]
    split
    · rename_i hfraction
      rw [hfraction]
      rfl
    · refine (pack_subnormal _ _ (@unpackMantissa .binary64 b).isLt).trans ?_
      rw [BitVec.ofNat_toNat, BitVec.setWidth_eq]
      rfl
  · have hlt : (@unpackExponent .binary64 b).toNat < 2 ^ 11 := (@unpackExponent .binary64 b).isLt
    refine (pack_normal _ (@unpackExponent .binary64 b).toNat ?_ _).trans ?_
    · omega
    · rw [BitVec.ofNat_toNat, BitVec.setWidth_eq]

/-- **The float of a bit pattern without the exponent of NaN has that bit pattern.** -/
theorem toBits_ofBits {bits : UInt64} (h : exponentField bits.toNat ≠ 2047) : (Float.ofBits bits).toBits = bits := by
  show UInt64.ofBitVec
    (Float.Model.UnpackedFloat.pack .binary64 (Float.Model.UnpackedFloat.unpack .binary64 bits.toBitVec)) = bits
  rw [pack_unpack h]

end Scriptlet.Number
