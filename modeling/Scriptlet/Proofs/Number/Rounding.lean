import Mathlib
import Scriptlet.Number.Text

/-!
# Rounding of exact ratios

A ratio that is the value of a float is read as that float, from the least positive one to the greatest.

* `units_normal`, `units_subnormal` — the units of a finite bit pattern, with and without the hidden bit.
* `roundDiv_mul` — a quotient without remainder needs no rounding.

Principal result: `nearestWord_of_exact` — the float nearest to the value of a float is that float.
-/

set_option autoImplicit false

namespace Scriptlet.Number

/-! ## Units -/

section Units

variable {word : Nat}

/-- The two fields of a finite bit pattern without sign. -/
theorem fields_of_lt (h : word < infinityWord) :
    word = exponentField word * 2 ^ 52 + fractionField word ∧ exponentField word < 2047 ∧
      fractionField word < 2 ^ 52 := by
  simp only [infinityWord, Nat.pow_eq] at h
  simp only [exponentField, fractionField, Nat.pow_eq]
  omega

theorem units_subnormal (h : exponentField word = 0) : units word = fractionField word := if_pos h

theorem units_normal (h : exponentField word ≠ 0) :
    units word = (2 ^ 52 + fractionField word) * 2 ^ (exponentField word - 1) :=
  if_neg h

/-- The length of a shifted significand. -/
theorem log2_significand {significand : Nat} (shift : Nat) (hlo : 2 ^ 52 ≤ significand) (hhi : significand < 2 ^ 53) :
    Nat.log2 (significand * 2 ^ shift) = 52 + shift := by
  have hpow : 0 < 2 ^ shift := Nat.two_pow_pos shift
  rw [Nat.log2_eq_iff (Nat.ne_of_gt (Nat.mul_pos (by omega) hpow))]
  constructor
  · calc 2 ^ (52 + shift) = 2 ^ 52 * 2 ^ shift := pow_add 2 52 shift
      _ ≤ significand * 2 ^ shift := Nat.mul_le_mul_right _ hlo
  · calc significand * 2 ^ shift < 2 ^ 53 * 2 ^ shift := Nat.mul_lt_mul_of_pos_right hhi hpow
      _ = 2 ^ (52 + shift + 1) := by rw [← pow_add]; congr 1; omega

/-- The shift that leaves 53 bits of the units is given by the exponent field. -/
theorem shift_units (h : word < infinityWord) : Nat.log2 (units word) - 52 = exponentField word - 1 := by
  obtain ⟨-, -, hfraction⟩ := fields_of_lt h
  by_cases he : exponentField word = 0
  · rw [units_subnormal he, he]
    by_cases hzero : fractionField word = 0
    · rw [hzero]
      rfl
    · have := (Nat.log2_lt hzero).mpr hfraction
      omega
  · have hlog := log2_significand (exponentField word - 1) (Nat.le_add_right (2 ^ 52) (fractionField word))
      (by omega)
    rw [units_normal he, hlog]
    omega

/-- The bits that the shift drops are zero. -/
theorem units_eq_mul (h : word < infinityWord) :
    units word = (word - (exponentField word - 1) * 2 ^ 52) * 2 ^ (exponentField word - 1) := by
  obtain ⟨hword, -, -⟩ := fields_of_lt h
  by_cases he : exponentField word = 0
  · rw [units_subnormal he, he]
    omega
  · rw [units_normal he]
    congr 1
    generalize exponentField word = e at hword he ⊢
    omega

end Units

/-! ## Exact quotients -/

theorem roundDiv_mul (quotient : Nat) {den : Nat} (hden : 0 < den) : roundDiv (quotient * den) den = quotient := by
  unfold roundDiv
  rw [Nat.mul_mod_left, Nat.mul_div_cancel _ hden]
  exact if_pos hden

/-- **The float nearest to the value of a float is that float.** -/
theorem nearestWord_of_exact {num den word : Nat} (hword : word < infinityWord) (hden : 0 < den)
    (h : num * one = units word * den) : nearestWord num den = word := by
  obtain ⟨hfields, -, -⟩ := fields_of_lt hword
  have hshift := shift_units hword
  have hunits := units_eq_mul hword
  unfold nearestWord
  simp only [Nat.pow_eq]
  rw [h, Nat.mul_div_cancel _ hden, hshift]
  have hround : roundDiv (units word * den) (den * 2 ^ (exponentField word - 1)) =
      word - (exponentField word - 1) * 2 ^ 52 := by
    rw [hunits, mul_assoc, mul_comm (2 ^ _) den]
    exact roundDiv_mul _ (Nat.mul_pos hden (Nat.two_pow_pos _))
  rw [hround]
  have hle : (exponentField word - 1) * 2 ^ 52 ≤ word := by omega
  rw [Nat.add_sub_cancel' hle]
  exact min_eq_right (Nat.le_of_lt hword)

end Scriptlet.Number
