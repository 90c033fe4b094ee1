import Scriptlet.Proofs.Token.Positions

/-!
# Scanning lexemes again

Where a token ends depends on what follows it.  A blank ends every token, so a lexeme that stands between blanks is
scanned as it was scanned among its neighbours.

* `spaced` — the lexemes of tokens, with single spaces between them.
* `Rescans` — a source without lexical errors and with the tokens of another one, up to their lines.

Principal results: `Lexeme.lawful_blank` — a lexeme is a segment in front of a blank and at the end of a text;
`rescan_lexemes` — the lexemes of a source, scanned again, give its tokens.
-/

set_option autoImplicit false

namespace Scriptlet

/-! ## Lexemes between blanks -/

section Blanks

variable {kind : TokenKind} {lexeme rest : List Char}

theorem isBlank_of_digit {c : Char} (h : c.isDigit = true) : isBlank c = false :=
  isBlank_of_namePart (namePart_of_digit h)

theorem isBlank_of_numberText {whole fraction : List Char} (hwhole : ∀ d ∈ whole, d.isDigit = true)
    (hfraction : ∀ d ∈ fraction, d.isDigit = true) : ∀ d ∈ numberText whole fraction, isBlank d = false := by
  intro d hd
  rw [numberText_eq] at hd
  rcases List.mem_append.mp hd with hd | hd
  · exact isBlank_of_digit (hwhole d hd)
  · cases fraction with
    | nil => cases hd
    | cons e fraction =>
        rcases List.mem_cons.mp hd with rfl | hd
        · rfl
        · exact isBlank_of_digit (hfraction d hd)

/-- Only strings hold blanks. -/
theorem Lexeme.isBlank_false {c : Char} (h : Lexeme kind (c :: lexeme)) (hopen : opening c ≠ .string) :
    ∀ d ∈ lexeme, isBlank d = false := by
  have operators : ∀ entry ∈ operatorTable, entry.1.any isBlank = false := by decide
  have hshape := h.shaped
  cases ho : opening c <;> rw [ho] at hshape
  case blank => exact hshape.elim
  case name => exact fun d hd => isBlank_of_namePart (hshape.1 d hd)
  case number =>
    obtain ⟨whole, fraction, hwhole, hfraction, rfl, -⟩ := hshape
    exact isBlank_of_numberText hwhole hfraction
  case string => exact absurd ho hopen
  case symbol =>
    intro d hd
    have hnone := List.any_eq_false.mp (operators _ hshape) d (List.mem_cons_of_mem _ hd)
    simpa using hnone

/-- A string does not go on after its closing quote. -/
theorem Lexeme.string_stops {c d : Char} {kind' : TokenKind} {more : List Char} (h : Lexeme kind (c :: lexeme))
    (hopen : opening c = .string) : ¬ Lexeme kind' (c :: (lexeme ++ d :: more)) := by
  intro h'
  have hshape := h.shaped
  have hshape' := h'.shaped
  rw [hopen] at hshape hshape'
  obtain ⟨body, -, rfl, -⟩ := hshape
  obtain ⟨body', hbody', htext, -⟩ := hshape'
  -- the closing quote of the shorter string stands inside the longer one
  refine hbody' ?_
  have hinside : body ++ ['"'] <+: body' := by
    refine List.prefix_of_prefix_length_le ?_ (List.prefix_append body' ['"']) ?_
    · rw [← htext]
      exact List.prefix_append _ _
    · have hlength := congrArg List.length htext
      simp only [List.length_append, List.length_cons, List.length_nil] at hlength ⊢
      omega
  exact hinside.subset (by simp)

/-- No rule matches more than a lexeme in front of a blank. -/
theorem Lexeme.longest_blank (h : Lexeme kind lexeme) (hrest : ∀ d ∈ rest.head?, isBlank d = true) :
    Longest lexeme rest := by
  intro kind' other hother hpre
  by_contra hlong
  -- a longer lexeme would hold the blank
  obtain ⟨more, rfl⟩ : lexeme <+: other :=
    List.prefix_of_prefix_length_le (List.prefix_append _ _) hpre (by omega)
  obtain ⟨c, l, rfl⟩ := h.exists_cons
  cases more with
  | nil => simp at hlong
  | cons d more =>
      obtain ⟨after, rfl⟩ : d :: more <+: rest := (List.prefix_append_right_inj _).mp hpre
      have hblank : isBlank d = true := hrest d rfl
      by_cases hopen : opening c = .string
      · exact h.string_stops hopen hother
      · have := hother.isBlank_false hopen d (by simp)
        rw [hblank] at this
        cases this

/-- A lexeme in front of a blank does not open a comment. -/
theorem Lexeme.not_comment (h : Lexeme kind lexeme) (hrest : ∀ d ∈ rest.head?, isBlank d = true) :
    ¬ ['/', '/'] <+: lexeme ++ rest := by
  have operators : ∀ entry ∈ operatorTable, entry.1.take 2 ≠ ['/', '/'] := by decide
  rintro ⟨after, hafter⟩
  obtain ⟨c, l, rfl⟩ := h.exists_cons
  obtain ⟨rfl, hl⟩ := List.cons.inj hafter
  cases l with
  | nil =>
      obtain rfl : '/' :: after = rest := hl
      have hslash : isBlank '/' = true := hrest '/' rfl
      cases hslash
  | cons d l =>
      obtain ⟨rfl, -⟩ := List.cons.inj hl
      exact operators _ h.shaped rfl

/-- **A lexeme is a segment in front of a blank, and at the end of a text.** -/
theorem Lexeme.lawful_blank (h : Lexeme kind lexeme) (hrest : ∀ d ∈ rest.head?, isBlank d = true) :
    (Segment.token kind lexeme).Lawful rest :=
  .token h (h.longest_blank hrest) (h.not_comment hrest)

end Blanks

/-! ## Texts of lexemes -/

/-- The lexemes of tokens, with single spaces between them. -/
def spaced (ts : List Token) : String := " ".intercalate (ts.map Token.lexeme)

theorem spaced_singleton (t : Token) : spaced [t] = t.lexeme := String.intercalate_singleton

theorem spaced_cons_cons (t u : Token) (ts : List Token) :
    (spaced (t :: u :: ts)).toList = t.lexeme.toList ++ ' ' :: (spaced (u :: ts)).toList := by
  simp [spaced]

/-- The end token adds a space, unless it is the only token. -/
theorem spaced_end {ts : List Token} (h : ts ≠ []) (line : Nat) :
    (spaced (ts ++ [.endOfSource line])).toList = (spaced ts).toList ++ [' '] := by
  have hlexemes : ts.map Token.lexeme ≠ [] := fun hnil => h (List.map_eq_nil_iff.mp hnil)
  rw [spaced, List.map_append, List.map_singleton, String.intercalate_append_of_ne_nil hlexemes (List.cons_ne_nil _ _)]
  simp [spaced, Token.endOfSource]

/-- What a scan finds for a token. -/
def Token.finding (t : Token) : Finding := .token t.kind t.lexeme

/-- Lexemes between spaces are cut at the spaces.  After them may come what starts with a blank and yields nothing. -/
theorem cuts_spaced {tail : List Char} {tailSegs : List Segment} (htail : Cuts tail tailSegs)
    (hblank : ∀ d ∈ tail.head?, isBlank d = true) (hsilent : tailSegs.filterMap Segment.finding? = []) {ts : List Token}
    (hts : ∀ t ∈ ts, Lexeme t.kind t.lexeme.toList) :
    ∃ segs, Cuts ((spaced ts).toList ++ tail) segs ∧ segs.filterMap Segment.finding? = ts.map Token.finding := by
  induction ts with
  | nil => exact ⟨tailSegs, htail, hsilent⟩
  | cons t ts ih =>
      obtain ⟨ht, hts⟩ := List.forall_mem_cons.mp hts
      have hfinding : (Segment.token t.kind t.lexeme.toList).finding? = some t.finding := by
        rw [Segment.finding?, String.ofList_toList, Token.finding]
      cases ts with
      | nil =>
          refine ⟨.token t.kind t.lexeme.toList :: tailSegs, ?_, ?_⟩
          · rw [spaced_singleton]
            exact .next (ht.lawful_blank hblank) htail
          · rw [List.filterMap_cons_some hfinding, hsilent]
            rfl
      | cons u ts =>
          obtain ⟨segs, hcuts, hsegs⟩ := ih hts
          have hspace : Cuts (' ' :: ((spaced (u :: ts)).toList ++ tail)) (.blank ' ' :: segs) :=
            .next (.blank rfl) hcuts
          refine ⟨.token t.kind t.lexeme.toList :: .blank ' ' :: segs, ?_, ?_⟩
          · rw [spaced_cons_cons, List.append_assoc]
            exact .next (ht.lawful_blank (by rintro _ ⟨⟩; rfl)) hspace
          · rw [List.filterMap_cons_some hfinding, List.filterMap_cons_none rfl, hsegs]
            rfl

/-! ## Scanning again -/

/-- A source without lexical errors that has the tokens of another one, up to their lines, with the end token last. -/
structure Rescans (source again : String) : Prop where
  noErrors : lexErrors again = []
  same : (tokens again).map (fun t => (t.kind, t.lexeme)) = (tokens source).map fun t => (t.kind, t.lexeme)
  ended : ∃ line, (tokens again).getLast? = some (.endOfSource line)

theorem items_of_findings {items : List ScanItem} {ts : List Token}
    (h : items.map ScanItem.finding = ts.map Token.finding) : items.filterMap ScanItem.error? = [] ∧
      (items.filterMap ScanItem.token?).map (fun t => (t.kind, t.lexeme)) = ts.map fun t => (t.kind, t.lexeme) := by
  induction items generalizing ts with
  | nil =>
      obtain rfl : ts = [] := List.map_eq_nil_iff.mp h.symm
      exact ⟨rfl, rfl⟩
  | cons item items ih =>
      cases ts with
      | nil => cases h
      | cons t ts =>
          rw [List.map_cons, List.map_cons] at h
          obtain ⟨hitem, hitems⟩ := List.cons.inj h
          obtain ⟨herrors, hsame⟩ := ih hitems
          cases item with
          | error e => cases hitem
          | token t' =>
              obtain ⟨hkind, hlexeme⟩ := Finding.token.inj hitem
              refine ⟨herrors, ?_⟩
              show (t'.kind, t'.lexeme) :: (items.filterMap ScanItem.token?).map _ = _
              rw [hkind, hlexeme, hsame, List.map_cons]

/-- A text that is cut into segments with the tokens of a source is such a source. -/
theorem Cuts.rescans {source again : String} {ts : List Token} {segs : List Segment} {line : Nat}
    (hcuts : Cuts again.toList segs) (hsegs : segs.filterMap Segment.finding? = ts.map Token.finding)
    (htokens : tokens source = ts ++ [.endOfSource line]) : Rescans source again := by
  have hfindings : (scan again).map ScanItem.finding = (tokens source).map Token.finding := by
    rw [scan, ← hcuts.eq_segments, findings_itemsFrom, hsegs, htokens, List.map_append]
    rfl
  obtain ⟨herrors, hsame⟩ := items_of_findings hfindings
  obtain ⟨ts', line', hagain, -⟩ := tokens_spec again
  exact ⟨herrors, hsame, line', by rw [hagain, List.getLast?_concat]⟩

/-- **The lexemes of a source, scanned again, give its tokens**, whether or not the empty lexeme of the end token is
joined with the others. -/
theorem rescan_lexemes (source : String) :
    Rescans source (spaced (tokens source)) ∧ Rescans source (spaced (tokens source).dropLast) := by
  obtain ⟨ts, line, htokens, hplain⟩ := tokens_spec source
  have hts : ∀ t ∈ ts, Lexeme t.kind t.lexeme.toList := by
    intro t ht
    rcases mem_tokens (htokens ▸ List.mem_append_left _ ht) with rfl | hlexeme
    · exact absurd rfl (hplain _ ht).notEnd
    · exact hlexeme
  have hbare : Rescans source (spaced ts) := by
    obtain ⟨segs, hcuts, hsegs⟩ := cuts_spaced .done nofun rfl hts
    rw [List.append_nil] at hcuts
    exact hcuts.rescans hsegs htokens
  refine ⟨?_, by rwa [htokens, List.dropLast_concat]⟩
  rw [htokens]
  by_cases hnone : ts = []
  · subst hnone
    exact hbare
  · have hspace : Cuts [' '] [.blank ' '] := .next (.blank rfl) .done
    obtain ⟨segs, hcuts, hsegs⟩ := cuts_spaced hspace (by rintro _ ⟨⟩; rfl) rfl hts
    rw [← spaced_end hnone line] at hcuts
    exact hcuts.rescans hsegs htokens

end Scriptlet
