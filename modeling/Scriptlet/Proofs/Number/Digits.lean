import Mathlib
import Scriptlet.Proofs.Number.Rounding
import Scriptlet.Token.Segment

/-!
# Digits of numbers

The digits of a decimal are read as that decimal, and every finite float is written by digits that are read as it.

* `Decimal.ofDigits_digits` — the digits before and after the point of a decimal.
* `toWord_shortestWord` — the shortest decimal of a float reads back.
* `TextStyle.Digits style word` — digits that a style writes for a float and that are read as it.

Principal result: `TextStyle.exists_digits` — a style that writes whole numbers with at most one zero after the point
has such digits for every finite float.
-/

set_option autoImplicit false

namespace Scriptlet.Number

/-! ## Digits of a decimal -/

namespace Decimal

theorem isDigit_toDigits {n : Nat} : ∀ c ∈ Nat.toDigits 10 n, c.isDigit = true :=
  fun _ hc => Nat.isDigit_of_mem_toDigits (by decide) (by decide) hc

theorem ofDigitChars_toDigits (n init : Nat) :
    Nat.ofDigitChars 10 (Nat.toDigits 10 n) init = init * 10 ^ (Nat.toDigits 10 n).length + n := by
  rw [Nat.ofDigitChars_eq_ofDigitChars_zero, Nat.ofDigitChars_toDigits (by decide) (by decide), Nat.mul_comm]

/-- Leading zeros count as digits but not for the value. -/
theorem ofDigitChars_padded {width n : Nat} (hwidth : 0 < width) (hn : n < 10 ^ width) (init : Nat) :
    Nat.ofDigitChars 10 (padded width n) init = init * 10 ^ width + n := by
  have hlen := (Nat.length_toDigits_le_iff (by decide) hwidth).mpr hn
  unfold padded
  simp only
  rw [Nat.ofDigitChars_append, Nat.ofDigitChars_replicate_zero, ofDigitChars_toDigits, mul_comm (10 ^ _) init,
    mul_assoc, ← pow_add, Nat.sub_add_cancel hlen]

theorem length_padded {width n : Nat} (hwidth : 0 < width) (hn : n < 10 ^ width) : (padded width n).length = width := by
  have hlen := (Nat.length_toDigits_le_iff (by decide) hwidth).mpr hn
  unfold padded
  simp only [List.length_append, List.length_replicate]
  omega

theorem isDigit_padded {width n : Nat} : ∀ c ∈ padded width n, c.isDigit = true := by
  intro c hc
  rcases List.mem_append.mp hc with hc | hc
  · rw [List.eq_of_mem_replicate hc]
    rfl
  · exact isDigit_toDigits c hc

theorem isDigit_wholeDigits (d : Decimal) : ∀ c ∈ d.wholeDigits, c.isDigit = true := isDigit_toDigits

theorem isDigit_fractionDigits (d : Decimal) : ∀ c ∈ d.fractionDigits, c.isDigit = true := by
  unfold fractionDigits
  split
  · nofun
  · exact isDigit_padded

/-- **The digits of a decimal are read as that decimal.** -/
theorem ofDigits_digits (d : Decimal) : ofDigits d.wholeDigits d.fractionDigits = d := by
  obtain ⟨coefficient, places⟩ := d
  unfold ofDigits fractionDigits wholeDigits
  simp only [Nat.pow_eq]
  by_cases hplaces : places = 0
  · subst hplaces
    rw [if_pos rfl, List.append_nil, Nat.ofDigitChars_toDigits (by decide) (by decide), pow_zero, Nat.div_one]
    rfl
  · have hpos := Nat.pos_of_ne_zero hplaces
    have hlt : coefficient % 10 ^ places < 10 ^ places := Nat.mod_lt _ (by positivity)
    rw [if_neg hplaces, Nat.ofDigitChars_append, Nat.ofDigitChars_toDigits (by decide) (by decide),
      ofDigitChars_padded hpos hlt, length_padded hpos hlt, Nat.div_add_mod']

/-- A decimal is written as a number of a source is. -/
theorem toList_positional (d : Decimal) : d.positional.toList = numberText d.wholeDigits d.fractionDigits := by
  unfold positional numberText
  rw [String.toList_ofList]
  by_cases hplaces : d.places = 0
  · rw [if_pos hplaces, if_pos (by rw [fractionDigits, if_pos hplaces]; rfl)]
  · have hlt : d.coefficient % 10 ^ d.places < 10 ^ d.places := Nat.mod_lt _ (by positivity)
    have hlen : d.fractionDigits.length = d.places := by
      rw [fractionDigits, if_neg hplaces]
      exact length_padded (Nat.pos_of_ne_zero hplaces) hlt
    have hne : d.fractionDigits.isEmpty = false := by
      cases hdigits : d.fractionDigits with
      | nil => exact absurd (by rw [← hlen, hdigits]; rfl) hplaces
      | cons => rfl
    rw [if_neg hplaces, hne]
    rfl

end Decimal

/-! ## Decimals that read back -/

section ReadBack

variable {word : Nat}

theorem toWord_hit? {g : Grid} {tie : Tie} {u : Nat} {d : Decimal} (h : g.hit? tie word u = some d) :
    d.toWord = word := by
  unfold Grid.hit? at h
  simp only at h
  -- Which decimals are tested and how they are read does not matter here.
  generalize Decimal.toWord = read at h ⊢
  generalize g.takesLower tie u (g.below u) = lower at h
  generalize g.next (g.below u) = high at h
  generalize g.below u = low at h
  by_cases hlow : read low = word
  · rw [if_pos hlow] at h
    split at h
    · rename_i hhigh
      cases h
      exact hhigh.1
    · cases h
      exact hlow
  · rw [if_neg hlow] at h
    split at h
    · rename_i hhigh
      cases h
      exact hhigh
    · cases h

/-- The exact value of a float is read as it. -/
theorem toWord_exactDecimal (h : word < infinityWord) : (exactDecimal (units word)).toWord = word := by
  refine nearestWord_of_exact h (Nat.pow_pos (by decide)) ?_
  have hpow (k : Nat) : Nat.pow 5 k * Nat.pow 2 k = Nat.pow 10 k := (Nat.mul_pow 5 2 k).symm
  unfold exactDecimal one
  simp only
  rw [mul_assoc, hpow]

/-- A whole number written with zeros after the point is read as the float of that value. -/
theorem toWord_ofDigits_whole (h : word < infinityWord) {n : Nat} (hn : n * one = units word) (zeros : Nat) :
    (Decimal.ofDigits (Nat.toDigits 10 n) (List.replicate zeros '0')).toWord = word := by
  refine nearestWord_of_exact h (Nat.pow_pos (by decide)) ?_
  unfold Decimal.ofDigits
  simp only
  rw [Nat.ofDigitChars_append, Nat.ofDigitChars_ten_toDigits, Nat.ofDigitChars_replicate_zero, List.length_replicate,
    mul_assoc, hn, mul_comm, Nat.pow_eq]

/-- **The shortest decimal of a float is read as it.** -/
theorem toWord_shortestWord (tie : Tie) (h : word < infinityWord) : (shortestWord tie word).toWord = word := by
  unfold shortestWord
  simp only
  split
  · rename_i hzero
    exact nearestWord_of_exact h Nat.one_pos (by rw [hzero, Nat.zero_mul, Nat.zero_mul])
  · cases hfound : (List.range 17).findSome? fun k =>
        (Grid.ofDigits (leadingExponent (units word)) (k + 1)).hit? tie word (units word) with
    | none => exact toWord_exactDecimal h
    | some d =>
        obtain ⟨k, -, hhit⟩ := List.exists_of_findSome?_eq_some hfound
        exact toWord_hit? hhit

end ReadBack

/-! ## Digits of a style -/

/-- Digits that a style writes for a float and that are read as it. -/
structure TextStyle.Digits (style : TextStyle) (word : Nat) where
  whole : List Char
  fraction : List Char
  nonempty : whole ≠ []
  isDigit_whole : ∀ c ∈ whole, c.isDigit = true
  isDigit_fraction : ∀ c ∈ fraction, c.isDigit = true
  text : (style.magnitude word).toList = numberText whole fraction
  read : (Decimal.ofDigits whole fraction).toWord = word

theorem Decimal.wholeDigits_ne_nil (d : Decimal) : d.wholeDigits ≠ [] := Nat.toDigits_ne_nil

/-- **Every finite float is written by digits that are read as it**, with at most one zero after the point of a whole
number. -/
theorem TextStyle.exists_digits {style : TextStyle} (hsuffix : style.wholeSuffix = "" ∨ style.wholeSuffix = ".0")
    {word : Nat} (h : word < infinityWord) : Nonempty (style.Digits word) := by
  by_cases hexact : (wholeUnits (units word) && style.writesExactly (units word / one)) = true
  · have hunits : units word / one * one = units word := by
      have hwhole := (Bool.and_eq_true_iff.mp hexact).1
      exact Nat.div_mul_cancel (Nat.dvd_of_mod_eq_zero (beq_iff_eq.mp hwhole))
    have htext : (style.magnitude word).toList =
        Nat.toDigits 10 (units word / one) ++ style.wholeSuffix.toList := by
      unfold TextStyle.magnitude
      simp only
      rw [if_pos hexact, String.toList_append, Nat.toList_repr]
    obtain ⟨zeros, hzeros⟩ : ∃ zeros, (style.magnitude word).toList =
        numberText (Nat.toDigits 10 (units word / one)) (List.replicate zeros '0') := by
      rcases hsuffix with hsuffix | hsuffix <;> rw [hsuffix] at htext
      · exact ⟨0, htext.trans (List.append_nil _)⟩
      · exact ⟨1, htext⟩
    refine ⟨⟨_, _, Nat.toDigits_ne_nil, Decimal.isDigit_toDigits, ?_, hzeros, toWord_ofDigits_whole h hunits zeros⟩⟩
    intro c hc
    rw [List.eq_of_mem_replicate hc]
    rfl
  · have hshortest : style.magnitude word = (shortestWord .up word).positional := by
      unfold TextStyle.magnitude
      exact if_neg hexact
    have hread := toWord_shortestWord .up h
    generalize shortestWord .up word = d at hshortest hread
    refine ⟨⟨d.wholeDigits, d.fractionDigits, d.wholeDigits_ne_nil, d.isDigit_wholeDigits, d.isDigit_fractionDigits,
      ?_, ?_⟩⟩
    · rw [hshortest, Decimal.toList_positional]
    · rw [Decimal.ofDigits_digits, hread]

end Scriptlet.Number
