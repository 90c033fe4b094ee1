import Mathlib.Data.List.TakeWhile
import Scriptlet.Token.Segment
import Scriptlet.Proofs.Token.Seam

/-!
# The lexical rules

The rules of the language without an order in which they are tried, and `cut` measured against them.

* `operatorTable`, `keywordTable` — the tables of the fixed lexemes.
* `Lexeme` — the texts that are tokens on their own, with their kinds.
* `Segment.Lawful` — what may stand in front of the rest of a text: a token where no rule matches more of the text, a
  blank, a comment up to its newline, a character where no rule matches, or a string that nothing closes.

Principal results: `cutsOff_cut` — the segment that `cut` takes off a text is lawful there; `cut_of_lawful` — no other
segment is.
-/

set_option autoImplicit false

namespace Scriptlet

/-! ## Rules -/

/-- Operators and punctuation. -/
def operatorTable : List (List Char × TokenKind) :=
  [(['('], .leftParen), ([')'], .rightParen), (['\x7b'], .leftBrace), (['\x7d'], .rightBrace), (['['], .leftBracket),
    ([']'], .rightBracket), ([','], .comma), (['.'], .dot), ([';'], .semicolon), (['?'], .question), ([':'], .colon),
    (['!'], .bang), (['!', '='], .bangEqual), (['='], .equal), (['=', '='], .equalEqual), (['<'], .less),
    (['<', '='], .lessEqual), (['>'], .greater), (['>', '='], .greaterEqual), (['+'], .plus), (['+', '+'], .plusPlus),
    (['+', '='], .plusEqual), (['-'], .minus), (['-', '-'], .minusMinus), (['-', '='], .minusEqual), (['*'], .star),
    (['*', '='], .starEqual), (['/'], .slash), (['/', '='], .slashEqual), (['%'], .percent),
    (['%', '='], .percentEqual), (['&'], .kwAnd), (['&', '&'], .kwAnd), (['|'], .kwOr), (['|', '|'], .kwOr)]

/-- Reserved names. -/
def keywordTable : List (String × TokenKind) :=
  [("and", .kwAnd), ("class", .kwClass), ("else", .kwElse), ("false", .kwFalse), ("for", .kwFor),
    ("function", .kwFunction), ("if", .kwIf), ("null", .kwNull), ("or", .kwOr), ("print", .kwPrint),
    ("return", .kwReturn), ("super", .kwSuper), ("this", .kwThis), ("true", .kwTrue), ("var", .kwVar),
    ("while", .kwWhile)]

/-- The kind of a name: that of a keyword, and `identifier` for a name that is not reserved. -/
def NameKind (name : String) (kind : TokenKind) : Prop :=
  (name, kind) ∈ keywordTable ∨ kind = .identifier ∧ ∀ reserved, (name, reserved) ∉ keywordTable

/-- A text that is a token of the given kind. -/
inductive Lexeme : TokenKind → List Char → Prop
  | operator {kind : TokenKind} {lexeme : List Char} : (lexeme, kind) ∈ operatorTable → Lexeme kind lexeme
  | name {kind : TokenKind} {c : Char} {rest : List Char} : isNameStart c = true → (∀ d ∈ rest, isNamePart d = true) →
      NameKind (String.ofList (c :: rest)) kind → Lexeme kind (c :: rest)
  /-- Digits, or digits on both sides of a point. -/
  | number {c : Char} {whole fraction : List Char} : c.isDigit = true → (∀ d ∈ whole, d.isDigit = true) →
      (∀ d ∈ fraction, d.isDigit = true) →
      Lexeme (.number (Number.Decimal.ofDigits (c :: whole) fraction).toFloat) (numberText (c :: whole) fraction)
  /-- A string without escapes; its payload is the text between the quotes. -/
  | string {body : List Char} : '"' ∉ body → Lexeme (.string (String.ofList body)) ('"' :: body ++ ['"'])

/-- No rule matches more of the text `lexeme ++ rest` than `lexeme`. -/
def Longest (lexeme rest : List Char) : Prop :=
  ∀ kind other, Lexeme kind other → other <+: lexeme ++ rest → other.length ≤ lexeme.length

/-- A segment that may stand in front of `rest`. -/
inductive Segment.Lawful : Segment → List Char → Prop
  | token {kind : TokenKind} {lexeme rest : List Char} : Lexeme kind lexeme → Longest lexeme rest →
      ¬ ['/', '/'] <+: lexeme ++ rest → Lawful (.token kind lexeme) rest
  | blank {c : Char} {rest : List Char} : isBlank c = true → Lawful (.blank c) rest
  | comment {body rest : List Char} : '\n' ∉ body → (∀ d ∈ rest.head?, d = '\n') →
      Lawful (.comment ('/' :: '/' :: body)) rest
  | stray {c : Char} {rest : List Char} : isBlank c = false → c ≠ '"' →
      (∀ kind lexeme, Lexeme kind lexeme → ¬ lexeme <+: c :: rest) → Lawful (.stray c) rest
  | openString {body : List Char} : '"' ∉ body → Lawful (.openString body) []

/-! ## Tables -/

/-- The kind of an operator, by its characters. -/
def operatorKind? : List Char → Option TokenKind
  | [c] => singleKind? c
  | [c, d] => pairKind? c d
  | _ => none

theorem operatorTable_kind : ∀ entry ∈ operatorTable, operatorKind? entry.1 = some entry.2 := by
  decide

theorem singleKind?_iff {c : Char} {kind : TokenKind} : singleKind? c = some kind ↔ ([c], kind) ∈ operatorTable := by
  constructor
  · intro h
    unfold singleKind? at h
    split at h <;> cases h <;> decide
  · intro h
    exact operatorTable_kind _ h

theorem pairKind?_iff {c d : Char} {kind : TokenKind} : pairKind? c d = some kind ↔ ([c, d], kind) ∈ operatorTable := by
  constructor
  · intro h
    unfold pairKind? at h
    split at h <;> cases h <;> decide
  · intro h
    exact operatorTable_kind _ h

theorem keywordTable_kind : ∀ entry ∈ keywordTable, nameKind entry.1 = entry.2 ∧ entry.2 ≠ .identifier := by
  decide

theorem nameKind_mem (name : String) : (name, nameKind name) ∈ keywordTable ∨ nameKind name = .identifier := by
  unfold nameKind
  split <;> simp [keywordTable]

theorem nameKind_iff {name : String} {kind : TokenKind} : nameKind name = kind ↔ NameKind name kind := by
  constructor
  · rintro rfl
    refine (nameKind_mem name).imp_right fun hkind => ⟨hkind, fun reserved hmem => ?_⟩
    obtain ⟨hreserved, hne⟩ := keywordTable_kind _ hmem
    exact hne (hreserved.symm.trans hkind)
  · rintro (hmem | ⟨rfl, hfree⟩)
    · exact (keywordTable_kind _ hmem).1
    · exact (nameKind_mem name).resolve_left (hfree _)

/-! ## First characters -/

/-- What a character opens. -/
inductive Opening where
  | blank | name | number | string | symbol
  deriving DecidableEq

def Opening.Opens : Opening → Char → Prop
  | .blank, c => isBlank c = true
  | .name, c => isNameStart c = true
  | .number, c => c.isDigit = true
  | .string, c => c = '"'
  | .symbol, c => isBlank c = false ∧ c ≠ '"'

def opening (c : Char) : Opening :=
  if isBlank c then .blank else if isNameStart c then .name else if c.isDigit then .number
  else if c = '"' then .string else .symbol

/-- The tokens of a kind that start with `c`, by what `c` opens. -/
def Shaped (kind : TokenKind) (c : Char) (rest : List Char) : Opening → Prop
  | .blank => False
  | .name => (∀ d ∈ rest, isNamePart d = true) ∧ NameKind (String.ofList (c :: rest)) kind
  | .number => ∃ whole fraction, (∀ d ∈ whole, d.isDigit = true) ∧ (∀ d ∈ fraction, d.isDigit = true) ∧
      rest = numberText whole fraction ∧ kind = .number (Number.Decimal.ofDigits (c :: whole) fraction).toFloat
  | .string => ∃ body, '"' ∉ body ∧ rest = body ++ ['"'] ∧ kind = .string (String.ofList body)
  | .symbol => (c :: rest, kind) ∈ operatorTable

theorem opening_spec {c : Char} {o : Opening} (h : opening c = o) : o.Opens c := by
  subst h
  unfold opening
  by_cases hblank : isBlank c = true
  · rwa [if_pos hblank]
  by_cases hname : isNameStart c = true
  · rwa [if_neg hblank, if_pos hname]
  by_cases hdigit : c.isDigit = true
  · rwa [if_neg hblank, if_neg hname, if_pos hdigit]
  by_cases hquote : c = '"'
  · rwa [if_neg hblank, if_neg hname, if_neg hdigit, if_pos hquote]
  · rw [if_neg hblank, if_neg hname, if_neg hdigit, if_neg hquote]
    exact ⟨by simpa using hblank, hquote⟩

theorem isBlank_of_namePart {c : Char} (h : isNamePart c = true) : isBlank c = false := by
  have hne : ∀ d : Char, isNamePart d = false → c ≠ d := by
    rintro d hd rfl
    rw [h] at hd
    cases hd
  simp [isBlank, hne ' ' rfl, hne '\r' rfl, hne '\t' rfl, hne '\n' rfl]

theorem namePart_of_nameStart {c : Char} (h : isNameStart c = true) : isNamePart c = true := by
  simp only [isNameStart, isNamePart, Char.isAlphanum, Bool.or_eq_true] at h ⊢
  exact h.imp_left .inl

theorem namePart_of_digit {c : Char} (h : c.isDigit = true) : isNamePart c = true := by
  simp [isNamePart, Char.isAlphanum, h]

theorem isNameStart_of_digit {c : Char} (h : c.isDigit = true) : isNameStart c = false := by
  have hunder : c ≠ '_' := by
    rintro rfl
    cases h
  unfold isNameStart Char.isAlpha Char.isUpper Char.isLower
  simp only [Char.isDigit, Bool.and_eq_true, decide_eq_true_eq, Bool.or_eq_false_iff, Bool.and_eq_false_iff,
    decide_eq_false_iff_not, beq_eq_false_iff_ne, ge_iff_le, UInt32.le_iff_toNat_le] at h ⊢
  have h9 : '9'.val.toNat = 57 := rfl
  have hA : 'A'.val.toNat = 65 := rfl
  have ha : 'a'.val.toNat = 97 := rfl
  exact ⟨by omega, hunder⟩

theorem opening_nameStart {c : Char} (h : isNameStart c = true) : opening c = .name := by
  rw [opening, isBlank_of_namePart (namePart_of_nameStart h), h]
  rfl

theorem opening_digit {c : Char} (h : c.isDigit = true) : opening c = .number := by
  rw [opening, isBlank_of_namePart (namePart_of_digit h), isNameStart_of_digit h, h]
  rfl

theorem opening_operator {c : Char} {rest : List Char} {kind : TokenKind} (h : (c :: rest, kind) ∈ operatorTable) :
    opening c = .symbol := by
  have table : ∀ entry ∈ operatorTable, entry.1.head?.map opening = some .symbol := by decide
  exact Option.some.inj (table _ h)

theorem numberText_cons (c : Char) (whole fraction : List Char) :
    numberText (c :: whole) fraction = c :: numberText whole fraction := by
  unfold numberText
  split <;> rfl

/-- The first character of a lexeme decides its rule. -/
theorem Lexeme.shaped {kind : TokenKind} {c : Char} {rest : List Char} (h : Lexeme kind (c :: rest)) :
    Shaped kind c rest (opening c) := by
  generalize htext : c :: rest = text at h
  cases h with
  | operator hmem =>
      subst htext
      rw [opening_operator hmem]
      exact hmem
  | name hstart hparts hkind =>
      cases htext
      rw [opening_nameStart hstart]
      exact ⟨hparts, hkind⟩
  | number hdigit hwhole hfraction =>
      rw [numberText_cons] at htext
      cases htext
      rw [opening_digit hdigit]
      exact ⟨_, _, hwhole, hfraction, rfl, rfl⟩
  | string hbody =>
      cases htext
      exact ⟨_, hbody, rfl, rfl⟩

theorem Lexeme.exists_cons {kind : TokenKind} {lexeme : List Char} (h : Lexeme kind lexeme) :
    ∃ c rest, lexeme = c :: rest := by
  cases h with
  | operator hmem =>
      cases lexeme with
      | nil => cases operatorTable_kind _ hmem
      | cons c rest => exact ⟨c, rest, rfl⟩
  | name => exact ⟨_, _, rfl⟩
  | number => exact ⟨_, _, numberText_cons _ _ _⟩
  | string => exact ⟨_, _, rfl⟩

/-- The first segment of a text, by what its first character opens. -/
theorem cut_eq (c : Char) (rest : List Char) : cut c rest = match opening c with
    | .blank => (.blank c, rest)
    | .name => cutName c rest
    | .number => cutNumber c rest
    | .string => cutString rest
    | .symbol => if c = '/' ∧ rest.head? = some '/' then cutComment rest.tail else cutSymbol c rest := by
  unfold opening
  by_cases hblank : isBlank c = true
  · simp only [cut, if_pos hblank]
  by_cases hname : isNameStart c = true
  · simp only [cut, if_neg hblank, if_pos hname]
  by_cases hdigit : c.isDigit = true
  · simp only [cut, if_neg hblank, if_neg hname, if_pos hdigit]
  by_cases hquote : c = '"'
  · simp only [cut, if_neg hblank, if_neg hname, if_neg hdigit, if_pos hquote, beq_iff_eq]
  have hquote' : ¬ (c == '"') = true := by simpa using hquote
  simp only [if_neg hblank, if_neg hname, if_neg hdigit, if_neg hquote]
  split
  · rename_i hslashes
    obtain ⟨rfl, hhead⟩ := hslashes
    obtain ⟨after, rfl⟩ := List.head?_eq_some_iff.mp hhead
    rfl
  · rename_i hslashes
    exact cut_symbol hblank hname hdigit hquote' hslashes

/-! ## The cut segment is lawful -/

section Prefixes

variable {p : Char → Bool} {l rest : List Char}

theorem length_le_takeWhile (hpre : l <+: rest) (hall : ∀ d ∈ l, p d = true) :
    l.length ≤ (rest.takeWhile p).length := by
  obtain ⟨after, rfl⟩ := hpre
  rw [List.takeWhile_append_of_pos hall, List.length_append]
  omega

theorem takeWhile_stop {d : Char} {after : List Char} (hall : ∀ d ∈ l, p d = true) (hstop : p d = false) :
    (l ++ d :: after).takeWhile p = l := by
  rw [List.takeWhile_append_of_pos hall, List.takeWhile_cons_of_neg (by simp [hstop]), List.append_nil]

theorem dropWhile_stop {d : Char} {after : List Char} (hall : ∀ d ∈ l, p d = true) (hstop : p d = false) :
    (l ++ d :: after).dropWhile p = d :: after := by
  rw [List.dropWhile_append_of_pos hall, List.dropWhile_cons_of_neg (by simp [hstop])]

end Prefixes

/-- The lexemes at the start of a text start with its first character. -/
theorem Lexeme.shaped_of_prefix {kind : TokenKind} {other : List Char} {c : Char} {rest : List Char}
    (h : Lexeme kind other) (hpre : other <+: c :: rest) :
    ∃ l, other = c :: l ∧ l <+: rest ∧ Shaped kind c l (opening c) := by
  obtain ⟨d, l, rfl⟩ := h.exists_cons
  obtain ⟨rfl, hl⟩ := List.cons_prefix_cons.mp hpre
  exact ⟨l, rfl, hl, h.shaped⟩

theorem numberText_eq (whole fraction : List Char) : numberText whole fraction = whole ++ numberText [] fraction := by
  unfold numberText
  split <;> simp

theorem cutNumber_eq (c : Char) (rest : List Char) : cutNumber c rest =
    let whole := c :: rest.takeWhile Char.isDigit
    let fraction := cutFraction (rest.dropWhile Char.isDigit)
    (.token (.number (Number.Decimal.ofDigits whole fraction.1).toFloat) (numberText whole fraction.1), fraction.2) :=
  rfl

theorem cutFraction_spec (text : List Char) :
    numberText [] (cutFraction text).1 ++ (cutFraction text).2 = text ∧
      ∀ d ∈ (cutFraction text).1, d.isDigit = true := by
  unfold cutFraction
  split
  · split
    · rename_i d rest hdigit
      refine ⟨?_, ?_⟩
      · simp [numberText]
      · intro e he
        rcases List.mem_cons.mp he with rfl | he
        · exact hdigit
        · exact List.mem_takeWhile_imp he
    · simp [numberText]
  · simp [numberText]

theorem cutFraction_point {d : Char} (hd : d.isDigit = true) (rest : List Char) : cutFraction ('.' :: d :: rest) =
    (d :: rest.takeWhile Char.isDigit, rest.dropWhile Char.isDigit) := by
  rw [cutFraction, if_pos hd]

/-- No number at the start of a text is longer than its digits with the fraction that follows them. -/
theorem length_numberText_le {text whole fraction : List Char} (hwhole : ∀ d ∈ whole, d.isDigit = true)
    (hfraction : ∀ d ∈ fraction, d.isDigit = true) (hpre : numberText whole fraction <+: text) :
    (numberText whole fraction).length ≤
      (numberText (text.takeWhile Char.isDigit) (cutFraction (text.dropWhile Char.isDigit)).1).length := by
  cases fraction with
  | nil =>
      rw [numberText_eq (text.takeWhile _), List.length_append]
      exact Nat.le_trans (length_le_takeWhile hpre hwhole) (Nat.le_add_right _ _)
  | cons d fraction =>
      -- the point ends the digits of `whole`, so the fraction is looked for right there
      obtain ⟨after, rfl⟩ := hpre
      obtain ⟨hd, hfraction⟩ := List.forall_mem_cons.mp hfraction
      have htext : numberText whole (d :: fraction) ++ after = whole ++ '.' :: d :: (fraction ++ after) := by
        simp [numberText]
      have hlength := length_le_takeWhile (List.prefix_append fraction after) hfraction
      rw [htext, takeWhile_stop hwhole rfl, dropWhile_stop hwhole rfl, cutFraction_point hd]
      simp only [numberText, List.isEmpty_cons, Bool.false_eq_true, if_false, List.length_append, List.length_cons]
      omega

/-- A segment and what follows it make up a text, and the segment is lawful there. -/
structure CutsOff (cutting : Segment × List Char) (text : List Char) : Prop where
  text_append : cutting.1.text ++ cutting.2 = text
  lawful : cutting.1.Lawful cutting.2

section Cuts

variable {c : Char} {rest : List Char}

theorem CutsOff.token {kind : TokenKind} {lexeme after : List Char} (htext : lexeme ++ after = c :: rest)
    (hlexeme : Lexeme kind lexeme)
    (hlongest : ∀ kind other, other <+: rest → Shaped kind c other (opening c) → other.length < lexeme.length)
    (hslashes : ¬ (c = '/' ∧ rest.head? = some '/')) : CutsOff (.token kind lexeme, after) (c :: rest) := by
  refine ⟨htext, .token hlexeme ?_ ?_⟩
  · intro kind other hother hpre
    rw [htext] at hpre
    obtain ⟨l, rfl, hl, hshape⟩ := hother.shaped_of_prefix hpre
    exact hlongest kind l hl hshape
  · rw [htext]
    rintro ⟨l, hl⟩
    cases hl
    exact hslashes ⟨rfl, rfl⟩

theorem cutsOff_cutName (hopen : opening c = .name) : CutsOff (cutName c rest) (c :: rest) := by
  have hstart : isNameStart c = true := opening_spec hopen
  refine .token ?_ (.name hstart (fun d => List.mem_takeWhile_imp) (nameKind_iff.mp rfl)) ?_ ?_
  · rw [List.cons_append, List.takeWhile_append_dropWhile]
  · intro kind other hpre hshape
    rw [hopen] at hshape
    exact Nat.lt_succ_of_le (length_le_takeWhile hpre hshape.1)
  · rintro ⟨rfl, -⟩
    cases hstart

theorem cutsOff_cutNumber (hopen : opening c = .number) : CutsOff (cutNumber c rest) (c :: rest) := by
  have hdigit : c.isDigit = true := opening_spec hopen
  obtain ⟨htext, hfraction⟩ := cutFraction_spec (rest.dropWhile Char.isDigit)
  rw [cutNumber_eq]
  refine .token ?_ (.number hdigit (fun d => List.mem_takeWhile_imp) hfraction) ?_ ?_
  · rw [numberText_eq, List.append_assoc, htext, List.cons_append, List.takeWhile_append_dropWhile]
  · intro kind other hpre hshape
    rw [hopen] at hshape
    obtain ⟨whole, fraction, hwhole, hfraction, rfl, -⟩ := hshape
    rw [numberText_cons]
    exact Nat.lt_succ_of_le (length_numberText_le hwhole hfraction hpre)
  · rintro ⟨rfl, -⟩
    cases hdigit

theorem cutsOff_cutString : CutsOff (cutString rest) ('"' :: rest) := by
  unfold cutString
  split
  · rename_i hdrop
    have hbody : rest.takeWhile (· != '"') = rest := by
      conv => rhs; rw [← List.takeWhile_append_dropWhile (p := (· != '"')) (l := rest), hdrop, List.append_nil]
    refine ⟨by simp [Segment.text, hbody], .openString fun hmem => ?_⟩
    simpa using List.mem_takeWhile_imp hmem
  · rename_i quote after hdrop
    have hquote : quote = '"' := by
      have := List.head?_dropWhile_not (· != '"') rest
      simpa [hdrop] using this
    subst hquote
    have hrest : rest.takeWhile (· != '"') ++ '"' :: after = rest := by
      rw [← hdrop, List.takeWhile_append_dropWhile]
    have hbody : '"' ∉ rest.takeWhile (· != '"') := fun hmem => by
      simpa using List.mem_takeWhile_imp hmem
    refine .token ?_ (.string hbody) ?_ ?_
    · rw [List.append_assoc, List.cons_append]
      exact congrArg _ hrest
    · intro kind other hpre hshape
      obtain ⟨body, hbody', rfl, -⟩ := hshape
      obtain ⟨after', rfl⟩ := hpre
      have hinside : ∀ d ∈ body, (d != '"') = true := fun d hd => bne_iff_ne.mpr (ne_of_mem_of_not_mem hd hbody')
      rw [List.append_assoc, List.singleton_append, takeWhile_stop hinside rfl]
      simp
    · rintro ⟨hquote, -⟩
      cases hquote

theorem cutsOff_cutComment : CutsOff (cutComment rest) ('/' :: '/' :: rest) := by
  refine ⟨?_, .comment ?_ ?_⟩
  · simp [cutComment, Segment.text]
  · intro hmem
    simpa using List.mem_takeWhile_imp hmem
  · intro d hd
    have hstop := List.head?_dropWhile_not (· != '\n') rest
    rw [show (rest.dropWhile (· != '\n')).head? = some d from hd] at hstop
    simpa using hstop

/-- An operator at the start of `c :: rest` has one character or two. -/
theorem operator_cases {kind : TokenKind} {other : List Char} (hpre : other <+: rest)
    (hmem : (c :: other, kind) ∈ operatorTable) :
    other = [] ∧ singleKind? c = some kind ∨ ∃ d, other = [d] ∧ rest.head? = some d ∧ pairKind? c d = some kind := by
  match other, hmem, hpre with
  | [], hmem, _ => exact .inl ⟨rfl, singleKind?_iff.mpr hmem⟩
  | [d], hmem, ⟨after, hafter⟩ => exact .inr ⟨d, rfl, by rw [← hafter]; rfl, pairKind?_iff.mpr hmem⟩
  | d :: e :: other, hmem, _ => cases operatorTable_kind _ hmem

theorem cutSymbol_cases (c : Char) (rest : List Char) :
    (∃ d after kind, rest = d :: after ∧ pairKind? c d = some kind ∧ cutSymbol c rest = (.token kind [c, d], after)) ∨
    (∀ d ∈ rest.head?, pairKind? c d = none) ∧
      ((∃ kind, singleKind? c = some kind ∧ cutSymbol c rest = (.token kind [c], rest)) ∨
        singleKind? c = none ∧ cutSymbol c rest = (.stray c, rest)) := by
  cases rest with
  | nil =>
      refine .inr ⟨by simp, ?_⟩
      cases hsingle : singleKind? c with
      | none => exact .inr ⟨rfl, by simp [cutSymbol, hsingle]⟩
      | some kind => exact .inl ⟨kind, rfl, by simp [cutSymbol, hsingle]⟩
  | cons d after =>
      cases hpair : pairKind? c d with
      | some kind => exact .inl ⟨d, after, kind, rfl, hpair, by simp [cutSymbol, hpair]⟩
      | none =>
          refine .inr ⟨by simp [hpair], ?_⟩
          cases hsingle : singleKind? c with
          | none => exact .inr ⟨rfl, by simp [cutSymbol, hpair, hsingle]⟩
          | some kind => exact .inl ⟨kind, rfl, by simp [cutSymbol, hpair, hsingle]⟩

theorem cutsOff_cutSymbol (hopen : opening c = .symbol) (hslashes : ¬ (c = '/' ∧ rest.head? = some '/')) :
    CutsOff (cutSymbol c rest) (c :: rest) := by
  rcases cutSymbol_cases c rest with
    ⟨d, after, kind, rfl, hpair, hcut⟩ | ⟨hpair, ⟨kind, hsingle, hcut⟩ | ⟨hsingle, hcut⟩⟩ <;> rw [hcut]
  · refine .token rfl (.operator (pairKind?_iff.mp hpair)) ?_ hslashes
    intro kind other hpre hshape
    rw [hopen] at hshape
    rcases operator_cases hpre hshape with ⟨rfl, -⟩ | ⟨d, rfl, -⟩ <;> simp
  · refine .token rfl (.operator (singleKind?_iff.mp hsingle)) ?_ hslashes
    intro kind other hpre hshape
    rw [hopen] at hshape
    rcases operator_cases hpre hshape with ⟨rfl, -⟩ | ⟨d, rfl, hhead, hpair'⟩
    · simp
    · rw [hpair d hhead] at hpair'
      cases hpair'
  · have hopens : isBlank c = false ∧ c ≠ '"' := opening_spec hopen
    refine ⟨rfl, .stray hopens.1 hopens.2 fun kind lexeme hlexeme hpre => ?_⟩
    obtain ⟨other, rfl, hother, hshape⟩ := hlexeme.shaped_of_prefix hpre
    rw [hopen] at hshape
    rcases operator_cases hother hshape with ⟨-, hsingle'⟩ | ⟨d, -, hhead, hpair'⟩
    · rw [hsingle] at hsingle'
      cases hsingle'
    · rw [hpair d hhead] at hpair'
      cases hpair'

/-- **The segment cut off a text is lawful there.** -/
theorem cutsOff_cut (c : Char) (rest : List Char) : CutsOff (cut c rest) (c :: rest) := by
  rw [cut_eq]
  cases hopen : opening c with
  | blank => exact ⟨rfl, .blank (opening_spec hopen)⟩
  | name => exact cutsOff_cutName hopen
  | number => exact cutsOff_cutNumber hopen
  | string =>
      obtain rfl : c = '"' := opening_spec hopen
      exact cutsOff_cutString
  | symbol =>
      dsimp only
      split
      · rename_i hslashes
        obtain ⟨rfl, hhead⟩ := hslashes
        obtain ⟨after, rfl⟩ := List.head?_eq_some_iff.mp hhead
        exact cutsOff_cutComment
      · exact cutsOff_cutSymbol hopen ‹_›

end Cuts

/-! ## No other segment is lawful -/

theorem numberText_inj {whole fraction whole' fraction' : List Char} (hwhole : ∀ d ∈ whole, d.isDigit = true)
    (hwhole' : ∀ d ∈ whole', d.isDigit = true) (h : numberText whole fraction = numberText whole' fraction') :
    whole = whole' ∧ fraction = fraction' := by
  have htake : ∀ {w f : List Char}, (∀ d ∈ w, d.isDigit = true) → (numberText w f).takeWhile Char.isDigit = w := by
    intro w f hw
    cases f with
    | nil => exact List.takeWhile_eq_self_iff.mpr hw
    | cons d f => exact takeWhile_stop hw rfl
  obtain rfl : whole = whole' := by rw [← htake hwhole, h, htake hwhole']
  rw [numberText_eq, numberText_eq whole fraction', List.append_cancel_left_eq] at h
  refine ⟨rfl, ?_⟩
  cases fraction <;> cases fraction' <;> simp_all [numberText]

/-- A lexeme has one kind. -/
theorem Lexeme.kind_unique {kind kind' : TokenKind} {lexeme : List Char} (h : Lexeme kind lexeme)
    (h' : Lexeme kind' lexeme) : kind = kind' := by
  obtain ⟨c, rest, rfl⟩ := h.exists_cons
  have hshape := h.shaped
  have hshape' := h'.shaped
  cases hopen : opening c <;> rw [hopen] at hshape hshape'
  case blank => exact hshape.elim
  case name => exact (nameKind_iff.mpr hshape.2).symm.trans (nameKind_iff.mpr hshape'.2)
  case number =>
    obtain ⟨whole, fraction, hwhole, -, rfl, rfl⟩ := hshape
    obtain ⟨whole', fraction', hwhole', -, htext, rfl⟩ := hshape'
    obtain ⟨rfl, rfl⟩ := numberText_inj hwhole hwhole' htext
    rfl
  case string =>
    obtain ⟨body, -, rfl, rfl⟩ := hshape
    obtain ⟨body', -, htext, rfl⟩ := hshape'
    rw [List.append_cancel_right htext]
  case symbol =>
    have hkind : some kind = some kind' := (operatorTable_kind _ hshape).symm.trans (operatorTable_kind _ hshape')
    exact Option.some.inj hkind

/-- A lawful token is the one cut off the text. -/
theorem cut_of_lexeme {kind : TokenKind} {c : Char} {lexeme rest : List Char} (hlexeme : Lexeme kind (c :: lexeme))
    (hlongest : Longest (c :: lexeme) rest) (hslashes : ¬ ['/', '/'] <+: c :: lexeme ++ rest) :
    cut c (lexeme ++ rest) = (.token kind (c :: lexeme), rest) := by
  obtain ⟨htext, hlawful⟩ := cutsOff_cut c (lexeme ++ rest)
  generalize cut c (lexeme ++ rest) = cutting at htext hlawful
  obtain ⟨s, after⟩ := cutting
  have hpre : c :: lexeme <+: s.text ++ after := by
    rw [htext]
    exact List.prefix_append (c :: lexeme) rest
  cases hlawful with
  | token hlexeme' hlongest' =>
      have hle := hlongest _ _ hlexeme' ⟨_, htext⟩
      have hge := hlongest' _ _ hlexeme hpre
      obtain ⟨rfl, rfl⟩ := List.append_inj htext (Nat.le_antisymm hle hge)
      rw [hlexeme.kind_unique hlexeme']
  | blank hblank => 
      cases htext
      have := hlexeme.shaped
      simp [opening, hblank, Shaped] at this
  | comment => exact absurd ⟨_, htext⟩ hslashes
  | stray hblank hquote hnone => exact absurd hpre (hnone _ _ hlexeme)
  | @openString body hbody =>
      have hrest : '"' :: body ++ [] = c :: (lexeme ++ rest) := htext
      rw [List.append_nil] at hrest
      obtain ⟨rfl, rfl⟩ := List.cons.inj hrest
      obtain ⟨inner, -, rfl, -⟩ := hlexeme.shaped
      exact absurd (by simp) hbody

/-- Where no rule matches, the character is cut off alone. -/
theorem cut_of_no_lexeme {c : Char} {rest : List Char} (hblank : isBlank c = false) (hquote : c ≠ '"')
    (hnone : ∀ kind lexeme, Lexeme kind lexeme → ¬ lexeme <+: c :: rest) : cut c rest = (.stray c, rest) := by
  obtain ⟨htext, hlawful⟩ := cutsOff_cut c rest
  generalize cut c rest = cutting at htext hlawful
  obtain ⟨s, after⟩ := cutting
  cases hlawful with
  | token hlexeme => exact absurd ⟨_, htext⟩ (hnone _ _ hlexeme)
  | blank hblank' =>
      cases htext
      rw [hblank] at hblank'
      cases hblank'
  | comment =>
      have hslash : Lexeme .slash ['/'] := .operator (by simp [operatorTable])
      exact absurd ⟨_, htext⟩ (hnone _ _ hslash)
  | stray =>
      cases htext
      rfl
  | openString => exact absurd (List.cons.inj htext).1.symm hquote

/-- **A lawful segment is the one cut off the text.** -/
theorem cut_of_lawful {s : Segment} {c : Char} {text rest : List Char} (h : s.Lawful rest)
    (htext : s.text = c :: text) : cut c (text ++ rest) = (s, rest) := by
  cases h with
  | token hlexeme hlongest hslashes =>
      cases htext
      exact cut_of_lexeme hlexeme hlongest hslashes
  | blank hblank =>
      cases htext
      simp only [cut, if_pos hblank, List.nil_append]
  | @comment body _ hbody hrest =>
      cases htext
      have hinside : ∀ d ∈ body, (d != '\n') = true := fun d hd => bne_iff_ne.mpr (ne_of_mem_of_not_mem hd hbody)
      have hcut : cut '/' ('/' :: body ++ rest) = cutComment (body ++ rest) := rfl
      rw [hcut, cutComment]
      cases rest with
      | nil => rw [List.append_nil, List.takeWhile_eq_self_iff.mpr hinside, List.dropWhile_eq_nil_iff.mpr hinside]
      | cons d rest =>
          obtain rfl := hrest d rfl
          rw [takeWhile_stop hinside rfl, dropWhile_stop hinside rfl]
  | stray hblank hquote hnone =>
      cases htext
      rw [List.nil_append]
      exact cut_of_no_lexeme hblank hquote hnone
  | @openString body hbody =>
      obtain ⟨rfl, rfl⟩ := List.cons.inj htext
      have hinside : ∀ d ∈ body, (d != '"') = true := fun d hd => bne_iff_ne.mpr (ne_of_mem_of_not_mem hd hbody)
      have hcut : cut '"' (body ++ []) = cutString (body ++ []) := rfl
      rw [hcut, List.append_nil, cutString, List.dropWhile_eq_nil_iff.mpr hinside]
      simp only [List.takeWhile_eq_self_iff.mpr hinside]

end Scriptlet
