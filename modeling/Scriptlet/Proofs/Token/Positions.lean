import Scriptlet.Proofs.Token.Segmentation

/-!
# Where the items of a stream stand

* `TokenKind.spelling?` — the spelling of the kinds of which a tree keeps the line only.
* `Token.Spelled` — a token of such a kind has that spelling.

Principal results: `mem_itemsFrom` — an item stands on the line on which its segment ends; `lexErrors_line` — lexical
errors are on lines of the source; `mem_tokens` — the lexemes of a source follow the lexical rules; `tokens_spelled` —
the tokens of a source are spelled like their kinds.
-/

set_option autoImplicit false

namespace Scriptlet

/-! ## Lines -/

/-- **An item is the end token, or comes from a segment and stands on the line on which that ends.** -/
theorem mem_itemsFrom {segs : List Segment} {line : Nat} {item : ScanItem} (h : item ∈ itemsFrom line segs) :
    item = .token (.endOfSource (line + segmentLines segs)) ∨
      ∃ before s after, segs = before ++ s :: after ∧
        s.item? (line + segmentLines before + newlines s.text) = some item := by
  induction segs generalizing line with
  | nil => exact .inl (List.mem_singleton.mp h)
  | cons s segs ih =>
      -- The item of `s` itself, or one of a later segment.
      have hcases : s.item? (line + newlines s.text) = some item ∨ item ∈ itemsFrom (line + newlines s.text) segs := by
        rw [itemsFrom] at h
        cases hitem : s.item? (line + newlines s.text) with
        | none =>
            simp only [hitem] at h
            exact .inr h
        | some first =>
            simp only [hitem] at h
            rcases List.mem_cons.mp h with rfl | h
            · exact .inl rfl
            · exact .inr h
      rcases hcases with hitem | hlater
      · exact .inr ⟨[], s, segs, rfl, hitem⟩
      · rcases ih hlater with rfl | ⟨before, s', after, rfl, hitem⟩
        · left
          rw [segmentLines_cons, Nat.add_assoc]
        · refine .inr ⟨s :: before, s', after, rfl, ?_⟩
          rw [segmentLines_cons, ← Nat.add_assoc]
          exact hitem

theorem segmentLines_segments (text : List Char) : segmentLines (segments text) = newlines text := by
  rw [segmentLines, (cuts_segments text).flatMap_text]

/-- **Lexical errors are on lines of the source.** -/
theorem lexErrors_line {source : String} {e : LexError} (h : e ∈ lexErrors source) :
    1 ≤ e.line ∧ e.line ≤ 1 + newlines source.toList := by
  obtain ⟨item, hmem, hitem⟩ := List.mem_filterMap.mp h
  have hlines := segmentLines_segments source.toList
  rcases mem_itemsFrom hmem with rfl | ⟨before, s, after, hsegs, hline⟩
  · cases hitem
  · have hsplit : newlines source.toList = segmentLines before + (newlines s.text + segmentLines after) := by
      rw [← hlines, hsegs, segmentLines, List.flatMap_append, newlines, List.count_append]
      exact congrArg (_ + ·) (segmentLines_cons s after)
    cases s with
    | stray c | openString body =>
        cases hline
        cases hitem
        simp only
        omega
    | token kind lexeme =>
        cases hline
        cases hitem
    | blank | comment => cases hline

/-! ## Spellings -/

/-- The spelling of the kinds of which a tree keeps the line only. -/
def TokenKind.spelling? : TokenKind → Option String
  | .rightParen => some ")"
  | .rightBracket => some "]"
  | .kwThis => some thisName
  | .kwReturn => some "return"
  | _ => none

/-- A token that is spelled like its kind. -/
def Token.Spelled (t : Token) : Prop := ∀ text ∈ t.kind.spelling?, t.lexeme = text

theorem Lexeme.spelled {kind : TokenKind} {lexeme : List Char} (h : Lexeme kind lexeme) :
    ∀ text ∈ kind.spelling?, String.ofList lexeme = text := by
  have operators : ∀ entry ∈ operatorTable, ∀ text ∈ entry.2.spelling?, String.ofList entry.1 = text := by decide
  have keywords : ∀ entry ∈ keywordTable, ∀ text ∈ entry.2.spelling?, entry.1 = text := by decide
  cases h with
  | operator hmem => exact operators _ hmem
  | name _ _ hname =>
      rcases hname with hmem | ⟨rfl, -⟩
      · exact keywords _ hmem
      · exact nofun
  | number => exact nofun
  | string => exact nofun

/-- A token of a source is the end token, or its lexeme follows the lexical rules. -/
theorem mem_tokens {source : String} {t : Token} (h : t ∈ tokens source) :
    t = .endOfSource (1 + segmentLines (segments source.toList)) ∨ Lexeme t.kind t.lexeme.toList := by
  obtain ⟨item, hmem, hitem⟩ := List.mem_filterMap.mp h
  rcases mem_itemsFrom hmem with rfl | ⟨before, s, after, hsegs, hline⟩
  · cases hitem
    exact .inl rfl
  · have hcuts := cuts_segments source.toList
    rw [hsegs] at hcuts
    obtain ⟨rest, -, hlawful, -⟩ := hcuts.split
    cases hlawful with
    | token hlexeme =>
        cases hline
        cases hitem
        right
        rwa [String.toList_ofList]
    | blank | comment => cases hline
    | stray | openString =>
        cases hline
        cases hitem

/-- **The tokens of a source are spelled like their kinds.** -/
theorem tokens_spelled (source : String) : ∀ t ∈ tokens source, t.Spelled := by
  intro t ht
  rcases mem_tokens ht with rfl | hlexeme
  · exact nofun
  · have hspelled := hlexeme.spelled
    rwa [String.ofList_toList] at hspelled

end Scriptlet
