import Scriptlet.Token.Scan
import Scriptlet.Tree.Basic

/-!
# Names in a scanned source

Keywords are never scanned as names; in particular no declared name is `this`.

Principal result: `tokens_spec` — the tokens of a source are followed by one end token, and none of them
is an end token or a name spelled `this`.
-/

set_option autoImplicit false

namespace Scriptlet

/-- A token that is no end token and no name spelled `this`. -/
structure Token.Plain (t : Token) : Prop where
  notEnd : t.kind ≠ .eof
  notThis : t.kind = .identifier → t.lexeme ≠ thisName

/-- A segment that makes no end token and no name spelled `this`. -/
def Segment.Plain : Segment → Prop
  | .token kind lexeme => kind ≠ .eof ∧ (kind = .identifier → String.ofList lexeme ≠ thisName)
  | _ => True

theorem nameKind_spec (name : String) :
    nameKind name ≠ .eof ∧ (nameKind name = .identifier → name ≠ thisName) := by
  unfold nameKind
  split <;> simp_all [thisName]

theorem singleKind?_spec {c : Char} {kind : TokenKind} (h : singleKind? c = some kind) :
    kind ≠ .eof ∧ kind ≠ .identifier := by
  unfold singleKind? at h
  split at h <;> cases h <;> simp

theorem pairKind?_spec {c d : Char} {kind : TokenKind} (h : pairKind? c d = some kind) :
    kind ≠ .eof ∧ kind ≠ .identifier := by
  unfold pairKind? at h
  split at h <;> cases h <;> simp

theorem plain_cutString (rest : List Char) : (cutString rest).1.Plain := by
  unfold cutString
  split <;> simp [Segment.Plain]

theorem plain_cutSymbol (c : Char) (rest : List Char) : (cutSymbol c rest).1.Plain := by
  have single : ∀ kind, singleKind? c = some kind → (Segment.token kind [c]).Plain := fun kind h =>
    ⟨(singleKind?_spec h).1, fun hk => absurd hk (singleKind?_spec h).2⟩
  unfold cutSymbol
  split
  · split
    · rename_i h
      exact ⟨(pairKind?_spec h).1, fun hk => absurd hk (pairKind?_spec h).2⟩
    · split
      · exact single _ ‹_›
      · trivial
  · split
    · exact single _ ‹_›
    · trivial

theorem plain_cut (c : Char) (rest : List Char) : (cut c rest).1.Plain := by
  unfold cut
  split
  · trivial
  split
  · exact nameKind_spec _
  split
  · simp [cutNumber, Segment.Plain]
  split
  · exact plain_cutString rest
  split
  · trivial
  · exact plain_cutSymbol c rest

theorem plain_segments (text : List Char) : ∀ s ∈ segments text, s.Plain := by
  induction text using segments.induct with
  | case1 => simp [segments]
  | case2 c rest ih =>
      rw [segments]
      intro s hs
      rcases List.mem_cons.mp hs with rfl | hs
      · exact plain_cut c rest
      · exact ih s hs

theorem itemsFrom_spec (segs : List Segment) (h : ∀ s ∈ segs, s.Plain) (line : Nat) :
    ∃ ts endLine, (itemsFrom line segs).filterMap ScanItem.token? = ts ++ [.endOfSource endLine] ∧
      ∀ t ∈ ts, t.Plain := by
  induction segs generalizing line with
  | nil => exact ⟨[], line, rfl, by simp⟩
  | cons s segs ih =>
      obtain ⟨ts, endLine, hts, hplain⟩ :=
        ih (fun s hs => h s (List.mem_cons_of_mem _ hs)) (line + newlines s.text)
      cases s with
      | token kind lexeme =>
          refine ⟨⟨kind, String.ofList lexeme, line + newlines lexeme⟩ :: ts, endLine,
            congrArg (_ :: ·) hts, ?_⟩
          intro t ht
          rcases List.mem_cons.mp ht with rfl | ht
          · have := h _ (List.mem_cons_self)
            exact ⟨this.1, this.2⟩
          · exact hplain t ht
      | blank | comment | stray | openString => exact ⟨ts, endLine, hts, hplain⟩

/-- **The tokens of a source end with its only end token, and no name is spelled `this`.** -/
theorem tokens_spec (source : String) :
    ∃ ts line, tokens source = ts ++ [.endOfSource line] ∧ ∀ t ∈ ts, t.Plain :=
  itemsFrom_spec _ (plain_segments _) 1

end Scriptlet
