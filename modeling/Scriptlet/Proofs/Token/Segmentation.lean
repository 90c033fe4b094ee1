import Mathlib.Data.List.Basic
import Scriptlet.Proofs.Token.Lexemes
import Scriptlet.Proofs.Token.Names

/-!
# Segmentation of a source

The stream of a source comes from cutting the whole source into lawful segments, which can be done in one way only.

* `Cuts` — a text cut into lawful segments from left to right.
* `Finding`, `ScanItem.finding`, `Segment.finding?` — an item of a stream without its line, and what a segment yields.
* `IsSlice` — the text between two byte offsets of a source, both of them boundaries between characters.

Principal result: `scan_segmentation`.  Where the lines of the items come from is not part of it.
-/

set_option autoImplicit false

namespace Scriptlet

/-! ## Cutting a whole text -/

/-- A text cut into lawful segments. -/
inductive Cuts : List Char → List Segment → Prop
  | done : Cuts [] []
  | next {s : Segment} {rest : List Char} {segs : List Segment} : s.Lawful rest → Cuts rest segs →
      Cuts (s.text ++ rest) (s :: segs)

theorem Segment.Lawful.exists_cons {s : Segment} {rest : List Char} (h : s.Lawful rest) :
    ∃ c text, s.text = c :: text := by
  cases h with
  | token hlexeme => exact hlexeme.exists_cons
  | blank | comment | stray | openString => exact ⟨_, _, rfl⟩

theorem cuts_segments (text : List Char) : Cuts text (segments text) := by
  induction text using segments.induct with
  | case1 =>
      rw [segments]
      exact .done
  | case2 c rest ih =>
      obtain ⟨htext, hlawful⟩ := cutsOff_cut c rest
      rw [segments, ← htext]
      exact .next hlawful ih

theorem Cuts.eq_segments {text : List Char} {segs : List Segment} (h : Cuts text segs) : segs = segments text := by
  induction h with
  | done => rw [segments]
  | @next s rest segs hlawful _ ih =>
      obtain ⟨c, text, htext⟩ := hlawful.exists_cons
      have hcut := cut_of_lawful hlawful htext
      rw [htext, List.cons_append, segments, hcut, ih]

/-- **A text is cut in one way only.** -/
theorem cuts_iff {text : List Char} {segs : List Segment} : Cuts text segs ↔ segs = segments text := by
  refine ⟨Cuts.eq_segments, ?_⟩
  rintro rfl
  exact cuts_segments text

/-- Each segment stands between the segments before it and a rest that is cut into those after it. -/
theorem Cuts.split {text : List Char} {before after : List Segment} {s : Segment}
    (h : Cuts text (before ++ s :: after)) :
    ∃ rest, text = before.flatMap Segment.text ++ s.text ++ rest ∧ s.Lawful rest ∧ Cuts rest after := by
  induction before generalizing text with
  | nil =>
      cases h with
      | next hlawful hrest => exact ⟨_, rfl, hlawful, hrest⟩
  | cons first before ih =>
      cases h with
      | next _ hrest =>
          obtain ⟨rest, rfl, hlawful, hafter⟩ := ih hrest
          exact ⟨rest, by simp, hlawful, hafter⟩

theorem Cuts.flatMap_text {text : List Char} {segs : List Segment} (h : Cuts text segs) :
    segs.flatMap Segment.text = text := by
  induction h with
  | done => rfl
  | next _ _ ih => rw [List.flatMap_cons, ih]

/-! ## Findings -/

/-- What a scan finds, without the line. -/
inductive Finding where
  | token (kind : TokenKind) (lexeme : String)
  | error (message : String)

def ScanItem.finding : ScanItem → Finding
  | .token t => .token t.kind t.lexeme
  | .error e => .error e.fault.message

/-- What a segment yields. -/
def Segment.finding? : Segment → Option Finding
  | .token kind lexeme => some (.token kind (String.ofList lexeme))
  | .stray c => some (.error ("Unexpected character: " ++ String.ofList [c]))
  | .openString _ => some (.error "Unterminated string.")
  | .blank _ => none
  | .comment _ => none

theorem Segment.finding_item? (s : Segment) (line : Nat) : (s.item? line).map ScanItem.finding = s.finding? := by
  cases s <;> rfl

theorem findings_itemsFrom (segs : List Segment) (line : Nat) :
    (itemsFrom line segs).map ScanItem.finding = segs.filterMap Segment.finding? ++ [.token .eof ""] := by
  induction segs generalizing line with
  | nil => rfl
  | cons s segs ih =>
      rw [itemsFrom, List.filterMap_cons, ← s.finding_item? (line + newlines s.text)]
      cases s.item? (line + newlines s.text) with
      | none => exact ih _
      | some item => exact congrArg (_ :: ·) (ih _)

/-! ## Slices -/

/-- The number of bytes that a text takes up. -/
def byteSize (text : List Char) : Nat := (String.ofList text).utf8ByteSize

/-- The bytes of a source between two offsets are a text, and both offsets are boundaries between characters. -/
structure IsSlice (source : String) (start stop : Nat) (text : List Char) : Prop where
  start_valid : String.Pos.Raw.IsValid source ⟨start⟩
  stop_valid : String.Pos.Raw.IsValid source ⟨stop⟩
  bytes : source.toByteArray.extract start stop = (String.ofList text).toByteArray

theorem byteSize_append (a b : List Char) : byteSize (a ++ b) = byteSize a + byteSize b := by
  rw [byteSize, String.ofList_append, String.utf8ByteSize_append]
  rfl

theorem isValid_byteSize {source : String} {before after : List Char} (h : source.toList = before ++ after) :
    String.Pos.Raw.IsValid source ⟨byteSize before⟩ := by
  refine String.Pos.Raw.isValid_iff_exists_append.mpr ⟨.ofList before, .ofList after, ?_, rfl⟩
  rw [← String.ofList_append, ← h, String.ofList_toList]

theorem isSlice_of_append {source : String} {before text after : List Char}
    (h : source.toList = before ++ text ++ after) :
    IsSlice source (byteSize before) (byteSize before + byteSize text) text := by
  refine ⟨isValid_byteSize (by rw [h, List.append_assoc]), ?_, ?_⟩
  · rw [← byteSize_append]
    exact isValid_byteSize h
  · have hsource : source = .ofList before ++ (.ofList text ++ .ofList after) := by
      rw [← String.ofList_append, ← String.ofList_append, ← List.append_assoc, ← h, String.ofList_toList]
    have hskip := ByteArray.extract_append_size_add' (i := 0) (j := byteSize text)
      (a := (String.ofList before).toByteArray) (b := (String.ofList text ++ String.ofList after).toByteArray) rfl
    rw [hsource, String.toByteArray_append]
    refine hskip.trans ?_
    rw [String.toByteArray_append]
    exact ByteArray.extract_append_eq_left rfl

theorem Cuts.isSlice {source : String} {before after : List Segment} {s : Segment}
    (h : Cuts source.toList (before ++ s :: after)) :
    IsSlice source (byteSize (before.flatMap Segment.text))
      (byteSize (before.flatMap Segment.text) + byteSize s.text) s.text := by
  obtain ⟨rest, htext, -, -⟩ := h.split
  exact isSlice_of_append htext

/-- The lexeme of a string token is its payload between quotes. -/
theorem Lexeme.eq_quoted {payload : String} {lexeme : List Char} (h : Lexeme (.string payload) lexeme) :
    lexeme = '"' :: payload.toList ++ ['"'] := by
  generalize hkind : TokenKind.string payload = kind at h
  cases h with
  | operator hmem =>
      have table : ∀ entry ∈ operatorTable, ∀ text, entry.2 ≠ .string text := by simp [operatorTable]
      exact absurd hkind.symm (table _ hmem payload)
  | name _ _ hname =>
      have table : ∀ entry ∈ keywordTable, ∀ text, entry.2 ≠ .string text := by simp [keywordTable]
      rcases hname with hmem | ⟨rfl, -⟩
      · exact absurd hkind.symm (table _ hmem payload)
      · cases hkind
  | number => cases hkind
  | string =>
      cases hkind
      simp

/-- The payload of a string is its slice without the quotes. -/
theorem Cuts.isSlice_payload {source : String} {before after : List Segment} {payload : String} {lexeme : List Char}
    (h : Cuts source.toList (before ++ .token (.string payload) lexeme :: after)) :
    IsSlice source (byteSize (before.flatMap Segment.text) + 1)
      (byteSize (before.flatMap Segment.text) + byteSize lexeme - 1) payload.toList := by
  obtain ⟨rest, htext, hlawful, -⟩ := h.split
  cases hlawful with
  | token hlexeme =>
      obtain rfl := hlexeme.eq_quoted
      have hquote : byteSize ['"'] = 1 := by decide
      have hsize : byteSize ('"' :: payload.toList ++ ['"']) = 1 + byteSize payload.toList + 1 := by
        rw [byteSize_append, ← List.singleton_append, byteSize_append, hquote]
      have hslice : source.toList =
          before.flatMap Segment.text ++ ['"'] ++ payload.toList ++ ('"' :: rest) := by
        rw [htext]
        simp [Segment.text]
      have hslice := isSlice_of_append hslice
      rw [byteSize_append, hquote] at hslice
      rw [hsize]
      convert hslice using 1
      omega

/-- An unclosed string is the last segment. -/
theorem Cuts.openString_last {text body : List Char} {before after : List Segment}
    (h : Cuts text (before ++ .openString body :: after)) : after = [] := by
  obtain ⟨rest, -, hlawful, hafter⟩ := h.split
  cases hlawful
  rw [hafter.eq_segments, segments]

/-- **Segmentation.**  The segments of a source are the only lawful ones it can be cut into, and make up the whole
source.  Its stream is what they yield, in their order, and then one end token; an unclosed string is the last of them.
The slices taken from the source, for a segment or for the payload of a string, start and end between characters. -/
theorem scan_segmentation (source : String) :
    (∀ segs, Cuts source.toList segs ↔ segs = segments source.toList) ∧
    (segments source.toList).flatMap Segment.text = source.toList ∧
    (scan source).map ScanItem.finding =
      (segments source.toList).filterMap Segment.finding? ++ [.token .eof ""] ∧
    (∀ kind lexeme, .token kind lexeme ∈ segments source.toList → kind ≠ .eof) ∧
    (∀ before body after, segments source.toList = before ++ .openString body :: after → after = []) ∧
    ∀ before s after, segments source.toList = before ++ s :: after →
      let start := byteSize (before.flatMap Segment.text)
      let stop := start + byteSize s.text
      IsSlice source start stop s.text ∧
        ∀ payload lexeme, s = .token (.string payload) lexeme →
          IsSlice source (start + 1) (stop - 1) payload.toList := by
  have hcuts := cuts_segments source.toList
  refine ⟨fun segs => cuts_iff, hcuts.flatMap_text, findings_itemsFrom _ _, ?_, ?_, ?_⟩
  · intro kind lexeme hmem
    exact (plain_segments _ _ hmem).1
  · intro before body after hsegs
    rw [hsegs] at hcuts
    exact hcuts.openString_last
  · intro before s after hsegs
    rw [hsegs] at hcuts
    refine ⟨hcuts.isSlice, ?_⟩
    rintro payload lexeme rfl
    exact hcuts.isSlice_payload

end Scriptlet
