import Mathlib
import Scriptlet.Proofs.Number.Bits
import Scriptlet.Proofs.Number.Digits
import Scriptlet.Proofs.Token.Rescan
import Scriptlet.Tree.Print

/-!
# Scanning number texts

The styles write a finite float without sign as digits with at most one point, and scanning these gives the float back.

* `ofWord` — the float of a magnitude below infinity.
* `TextStyle.lexeme_text` — the text of such a float is a number lexeme of that float.
* `Lexeme.scan_eq` — a lexeme without newlines is scanned as one token.

Principal result: `scan_number_texts` — numbers survive printing and scanning, in all three styles.
-/

set_option autoImplicit false

namespace Scriptlet

namespace Number

/-! ## Floats of magnitudes -/

/-- The float of a magnitude. -/
def ofWord (word : Nat) : Float := Float.ofBits (UInt64.ofNat word)

section Words

variable {word : Nat}

theorem toNat_ofNat_word (h : word < infinityWord) : (UInt64.ofNat word).toNat = word := by
  simp only [infinityWord, Nat.pow_eq] at h
  rw [UInt64.toNat_ofNat']
  omega

theorem exponentField_lt_of_word (h : word < infinityWord) : exponentField word < 2047 := by
  simp only [infinityWord, exponentField, Nat.pow_eq] at h ⊢
  omega

theorem toBits_ofWord (h : word < infinityWord) : (ofWord word).toBits = UInt64.ofNat word := by
  refine toBits_ofBits ?_
  rw [toNat_ofNat_word h]
  exact (exponentField_lt_of_word h).ne

theorem magnitudeWord_ofWord (h : word < infinityWord) : magnitudeWord (ofWord word) = word := by
  unfold magnitudeWord
  rw [toBits_ofWord h, toNat_ofNat_word h]
  simp only [infinityWord, Nat.pow_eq] at h ⊢
  omega

theorem view_ofWord (h : word < infinityWord) : view (ofWord word) = .finite false (units word) := by
  unfold view
  rw [toBits_ofWord h, toNat_ofNat_word h]
  have hpositive : decide (Nat.pow 2 63 ≤ word) = false := by
    simp only [infinityWord, Nat.pow_eq] at h ⊢
    exact decide_eq_false (by omega)
  unfold viewWord
  simp only
  rw [if_neg (exponentField_lt_of_word h).ne, hpositive]

/-- **Every style writes a finite float without sign as a number lexeme of that float.** -/
theorem TextStyle.lexeme_text {style : TextStyle} (hsuffix : style.wholeSuffix = "" ∨ style.wholeSuffix = ".0")
    (h : word < infinityWord) : Lexeme (.number (ofWord word)) (style.text (ofWord word)).toList := by
  have htext : style.text (ofWord word) = style.magnitude word := by
    unfold TextStyle.text
    rw [view_ofWord h, magnitudeWord_ofWord h]
    exact String.empty_append
  obtain ⟨digits⟩ := style.exists_digits hsuffix h
  have hread : (Decimal.ofDigits digits.whole digits.fraction).toFloat = ofWord word :=
    congrArg ofWord digits.read
  obtain ⟨c, whole, hwhole⟩ := List.exists_cons_of_ne_nil digits.nonempty
  have hdigits := digits.isDigit_whole
  rw [hwhole] at hread hdigits
  obtain ⟨hc, hdigits⟩ := List.forall_mem_cons.mp hdigits
  rw [htext, digits.text, hwhole, ← hread]
  exact .number hc hdigits digits.isDigit_fraction

end Words

end Number

/-! ## Scanning -/

/-- Only strings hold blanks. -/
theorem Lexeme.isBlank_eq_false {kind : TokenKind} {lexeme : List Char} (h : Lexeme kind lexeme)
    (hkind : ∀ payload, kind ≠ .string payload) : ∀ d ∈ lexeme, isBlank d = false := by
  obtain ⟨c, rest, rfl⟩ := h.exists_cons
  have hshape := h.shaped
  have hopen := opening_spec (c := c) rfl
  have hhead : isBlank c = false ∧ opening c ≠ .string := by
    cases ho : opening c <;> rw [ho] at hshape hopen
    case blank => exact hshape.elim
    case name => exact ⟨isBlank_of_namePart (namePart_of_nameStart hopen), nofun⟩
    case number => exact ⟨isBlank_of_digit hopen, nofun⟩
    case string =>
      obtain ⟨_, _, _, hstring⟩ := hshape
      exact absurd hstring (hkind _)
    case symbol => exact ⟨hopen.1, nofun⟩
  exact List.forall_mem_cons.mpr ⟨hhead.1, h.isBlank_false hhead.2⟩

theorem Lexeme.scan_eq {kind : TokenKind} {text : String} (h : Lexeme kind text.toList) (hkind : ∀ payload, kind ≠ .string payload) :
    scan text = [.token ⟨kind, text, 1⟩, .token (.endOfSource 1)] := by
  have hcuts : Cuts (text.toList ++ []) [.token kind text.toList] := .next (h.lawful_blank (by simp)) .done
  rw [List.append_nil] at hcuts
  have hnone : newlines text.toList = 0 :=
    List.count_eq_zero.mpr fun hmem => Bool.noConfusion (h.isBlank_eq_false hkind _ hmem)
  unfold scan
  rw [← hcuts.eq_segments]
  simp [itemsFrom, Segment.item?, Segment.text, hnone]

/-- **Numbers survive printing and scanning.**  The float of any finite bit pattern without sign has that bit pattern,
and its three texts are scanned without error as one number token of the same bit pattern. -/
theorem scan_number_texts (bits : UInt64) (hsign : bits.toNat < 2 ^ 63)
    (hfinite : Number.exponentField bits.toNat ≠ 2047) :
    (Float.ofBits bits).toBits = bits ∧
      ∀ text ∈ [Number.valueStyle.text (.ofBits bits), (TokenKind.number (.ofBits bits)).valueText,
          (Literal.number (.ofBits bits)).text],
        ∃ y, scan text = [.token ⟨.number y, text, 1⟩, .token (.endOfSource 1)] ∧ y.toBits = bits := by
  have hword : bits.toNat < Number.infinityWord := by
    simp only [Number.exponentField, Number.infinityWord, Nat.pow_eq] at hfinite ⊢
    omega
  have hbits := Number.toBits_ofBits hfinite
  have hread {style : Number.TextStyle} (hsuffix : style.wholeSuffix = "" ∨ style.wholeSuffix = ".0") :
      scan (style.text (.ofBits bits)) =
        [.token ⟨.number (.ofBits bits), style.text (.ofBits bits), 1⟩, .token (.endOfSource 1)] := by
    have hlexeme := style.lexeme_text hsuffix hword
    rw [Number.ofWord, UInt64.ofNat_toNat] at hlexeme
    exact hlexeme.scan_eq fun _ => TokenKind.noConfusion
  refine ⟨hbits, fun text htext => ⟨.ofBits bits, ?_, hbits⟩⟩
  simp only [List.mem_cons, List.not_mem_nil, or_false] at htext
  rcases htext with rfl | rfl | rfl
  · exact hread (.inl rfl)
  · exact hread (.inr rfl)
  · exact hread (.inr rfl)

/-- One tenth. -/
theorem scan_number_texts_tenth : ∃ y,
    scan (Number.valueStyle.text (.ofBits 0x3FB999999999999A)) =
      [.token ⟨.number y, Number.valueStyle.text (.ofBits 0x3FB999999999999A), 1⟩, .token (.endOfSource 1)] ∧
    y.toBits = 0x3FB999999999999A :=
  (scan_number_texts 0x3FB999999999999A (by decide) (by decide)).2 _ (.head _)

end Scriptlet
