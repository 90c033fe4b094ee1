import Mathlib
import Scriptlet.Proofs.Token.Positions

/-!
# Line numbers

A scanner counts lines as it goes.  Here the lines of a stream are read off the bytes of the source instead.

* `lineAt` — the line at a byte offset of a source: one more than the newline bytes in front of it.
* `Span` — a segment with the byte offsets between which it stands; `Span.report?` — the item that it yields, with the
  line read off the source.

Principal results: `scan_lines` — every item of a stream is on the line read off the source; `scan_compositional` — the
stream of two sources joined by a newline.
-/

set_option autoImplicit false

namespace Scriptlet

/-! ## Newlines in bytes -/

/-- The number of newline bytes. -/
def newlineBytes (bytes : ByteArray) : Nat := bytes.data.toList.count 0x0A

/-- The line at a byte offset of a source. -/
def lineAt (source : String) (offset : Nat) : Nat := 1 + newlineBytes (source.toByteArray.extract 0 offset)

/-- A byte of an encoded character that is marked as one of several is no newline. -/
theorem or_ne_newline (x : UInt8) {mark : UInt8} (h : 0x80 ≤ mark.toNat) : x ||| mark ≠ 0x0A := by
  intro heq
  have hle : mark.toNat ≤ (x ||| mark).toNat := by
    rw [UInt8.toNat_or]
    exact Nat.right_le_or
  rw [heq] at hle
  have hten : (0x0A : UInt8).toNat = 10 := rfl
  omega

/-- A newline is the only character with a newline among its bytes. -/
theorem count_utf8EncodeChar (c : Char) : (String.utf8EncodeChar c).count 0x0A = if c = '\n' then 1 else 0 := by
  by_cases hone : c.utf8Size = 1
  · -- one byte, which is the code of the character
    have hle : c.val.toNat ≤ 127 := UInt32.le_iff_toNat_le.mp (Char.utf8Size_eq_one_iff.mp hone)
    have hiff : c.val.toUInt8 = 0x0A ↔ c = '\n' := by
      rw [← UInt8.toNat_inj, UInt32.toNat_toUInt8, Nat.mod_eq_of_lt (by omega), Char.ext_iff, ← UInt32.toNat_inj]
      rfl
    rw [String.utf8EncodeChar_eq_singleton hone, List.count_singleton]
    simp only [beq_iff_eq, hiff]
  · have hne : c ≠ '\n' := by
      rintro rfl
      exact hone rfl
    rw [if_neg hne, List.count_eq_zero]
    rcases (Char.utf8Size_eq c).resolve_left hone with htwo | hthree | hfour
    · rw [String.utf8EncodeChar_eq_cons_cons htwo]
      simp [(or_ne_newline _ _).symm]
    · rw [String.utf8EncodeChar_eq_cons_cons_cons hthree]
      simp [(or_ne_newline _ _).symm]
    · rw [String.utf8EncodeChar_eq_cons_cons_cons_cons hfour]
      simp [(or_ne_newline _ _).symm]

theorem newlineBytes_ofList (text : List Char) : newlineBytes (String.ofList text).toByteArray = newlines text := by
  rw [String.toByteArray_ofList, newlineBytes, List.utf8Encode, List.data_toByteArray, newlines]
  induction text with
  | nil => rfl
  | cons c text ih =>
      rw [List.flatMap_cons, List.count_append, List.count_cons, count_utf8EncodeChar, ih, Nat.add_comm]
      simp only [beq_iff_eq]

theorem lineAt_byteSize {source : String} {before after : List Char} (h : source.toList = before ++ after) :
    lineAt source (byteSize before) = 1 + newlines before := by
  have hslice : IsSlice source (byteSize []) (byteSize [] + byteSize before) before := isSlice_of_append h
  have hempty : byteSize [] = 0 := rfl
  rw [hempty, Nat.zero_add] at hslice
  rw [lineAt, hslice.bytes, newlineBytes_ofList]

theorem lineAt_end (source : String) : lineAt source source.utf8ByteSize = 1 + newlines source.toList := by
  have hsize : byteSize source.toList = source.utf8ByteSize := by rw [byteSize, String.ofList_toList]
  rw [← hsize]
  exact lineAt_byteSize (List.append_nil _).symm

/-! ## Spans -/

/-- A segment and where it stands in a source. -/
structure Span where
  segment : Segment
  start : Nat
  stop : Nat

/-- Segments that follow one another from a byte offset on. -/
def spansFrom (start : Nat) : List Segment → List Span
  | [] => []
  | s :: rest => ⟨s, start, start + byteSize s.text⟩ :: spansFrom (start + byteSize s.text) rest

/-- The item of a segment: a token is on the line on which its lexeme ends, a character that belongs to no token on its
own line, and an unclosed string on the last line of the source. -/
def Span.report? (source : String) (span : Span) : Option ScanItem :=
  match span.segment with
  | .token kind lexeme => some (.token ⟨kind, String.ofList lexeme, lineAt source span.stop⟩)
  | .stray c => some (.error ⟨lineAt source span.start, .unexpectedCharacter c⟩)
  | .openString _ => some (.error ⟨lineAt source source.utf8ByteSize, .unterminatedString⟩)
  | .blank _ => none
  | .comment _ => none

section Spans

variable {source : String} {text : List Char} {segs : List Segment}

/-- A segment is reported on the line that was counted up to its end. -/
theorem Segment.Lawful.report?_eq {before rest : List Char} {s : Segment} (h : s.Lawful rest)
    (hsource : source.toList = before ++ (s.text ++ rest)) :
    Span.report? source ⟨s, byteSize before, byteSize before + byteSize s.text⟩ =
      s.item? (1 + newlines before + newlines s.text) := by
  have hstart := lineAt_byteSize hsource
  have hstop : lineAt source (byteSize before + byteSize s.text) = 1 + newlines before + newlines s.text := by
    rw [← byteSize_append, lineAt_byteSize (hsource.trans (List.append_assoc _ _ _).symm), newlines, List.count_append,
      ← Nat.add_assoc]
    rfl
  cases h with
  | token => simp only [Span.report?, Segment.item?, hstop]
  | blank | comment => rfl
  | @stray c _ hblank =>
      have hline : newlines [c] = 0 := by
        refine List.count_eq_zero.mpr fun hmem => ?_
        obtain rfl := List.mem_singleton.mp hmem
        cases hblank
      simp only [Span.report?, Segment.item?, hstart, Segment.text, hline, Nat.add_zero]
  | @openString body _ =>
      have hend : source.utf8ByteSize = byteSize before + byteSize (Segment.openString body).text := by
        rw [← byteSize_append, ← List.append_nil (Segment.text _), ← hsource, byteSize, String.ofList_toList]
      simp only [Span.report?, Segment.item?, hend, hstop]

/-- The stream of segments, with the lines read off the source. -/
theorem Cuts.itemsFrom_eq (h : Cuts text segs) : ∀ {before : List Char}, source.toList = before ++ text →
    itemsFrom (1 + newlines before) segs = (spansFrom (byteSize before) segs).filterMap (Span.report? source) ++
      [.token (.endOfSource (lineAt source source.utf8ByteSize))] := by
  induction h with
  | done =>
      intro before hsource
      rw [List.append_nil] at hsource
      rw [lineAt_end, hsource]
      rfl
  | @next s rest segs hlawful _ ih =>
      intro before hsource
      have hreport := hlawful.report?_eq hsource
      have hrest := ih (hsource.trans (List.append_assoc _ _ _).symm)
      rw [newlines, List.count_append, ← Nat.add_assoc, byteSize_append] at hrest
      rw [itemsFrom, spansFrom, List.filterMap_cons, hreport]
      cases s.item? (1 + newlines before + newlines s.text) with
      | none => exact hrest
      | some item => exact congrArg (item :: ·) hrest

theorem Cuts.isSlice_span (h : Cuts text segs) : ∀ {before : List Char}, source.toList = before ++ text →
    ∀ span ∈ spansFrom (byteSize before) segs, IsSlice source span.start span.stop span.segment.text := by
  induction h with
  | done => exact fun _ => nofun
  | @next s rest segs _ _ ih =>
      intro before hsource span hspan
      rw [← List.append_assoc] at hsource
      rcases List.mem_cons.mp hspan with rfl | hspan
      · exact isSlice_of_append hsource
      · rw [← byteSize_append] at hspan
        exact ih hsource span hspan

end Spans

/-- A stream ends with the end token, on the last line of the source. -/
theorem scan_getLast (source : String) :
    (scan source).getLast? = some (.token (.endOfSource (1 + newlines source.toList))) := by
  have hsource : source.toList = [] ++ source.toList := rfl
  have hstream := (cuts_segments source.toList).itemsFrom_eq hsource
  rw [← lineAt_end, scan]
  exact (congrArg List.getLast? hstream).trans List.getLast?_concat

/-- **Scanning is compositional at a newline.**  If the first source has no unclosed string, the stream of two sources
joined by a newline is that of the first, without its end token, and that of the second, further down by the lines of
the first. -/
theorem scan_compositional {source : String} (after : String)
    (h : ∀ e ∈ lexErrors source, e.fault ≠ .unterminatedString) :
    scan source = (scan source).dropLast ++ [.token (.endOfSource (1 + newlines source.toList))] ∧
      scan (source ++ "\n" ++ after) =
        (scan source).dropLast ++ (scan after).map (ScanItem.mapLine (· + (1 + newlines source.toList))) := by
  obtain ⟨items, k, hitems, hjoined⟩ := scan_newline after h
  have hlast := scan_getLast source
  rw [hitems, List.getLast?_concat] at hlast
  cases hlast
  rw [hjoined, hitems, List.dropLast_concat]
  exact ⟨rfl, rfl⟩

/-- A comment and half an operator at the end of a source, and the same half, a string over two lines and a stray
character in the next one. -/
theorem scan_compositional_halves :
    (∀ e ∈ lexErrors "a // é\n&", e.fault ≠ .unterminatedString) ∧
      scan "a // é\n&\n& \"x\ny\" #" =
        [.token ⟨.identifier, "a", 1⟩, .token ⟨.kwAnd, "&", 2⟩, .token ⟨.kwAnd, "&", 3⟩,
          .token ⟨.string "x\ny", "\"x\ny\"", 4⟩, .error ⟨4, .unexpectedCharacter '#'⟩, .token ⟨.eof, "", 4⟩] := by
  have hclosed : lexErrors "a // é\n&" = [] := by cbv
  have h : ∀ e ∈ lexErrors "a // é\n&", e.fault ≠ .unterminatedString := by simp [hclosed]
  refine ⟨h, (scan_compositional "& \"x\ny\" #" h).2.trans ?_⟩
  cbv

end Scriptlet
