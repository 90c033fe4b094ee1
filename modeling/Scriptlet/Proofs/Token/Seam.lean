import Scriptlet.Token.Scan
import Scriptlet.Proofs.Tree.Lines

/-!
# Scanning across a newline

A newline ends every segment but a string, and starts none.  So a text without an unclosed string is cut in the same
way whatever follows it after a newline.

* `ScanItem.mapLine` — an item of a stream on another line.

Principal results: `segments_newline` — the segments of two texts joined by a newline; `tokens_newline` — their tokens;
`lexErrors_newline` — their lexical errors.
-/

set_option autoImplicit false

namespace Scriptlet

/-! ## Cutting at a newline -/

section Runs

variable {p : Char → Bool} (hp : p '\n' = false) (l after : List Char)
include hp

theorem takeWhile_newline : (l ++ '\n' :: after).takeWhile p = l.takeWhile p := by
  induction l with
  | nil => rw [List.nil_append, List.takeWhile_cons_of_neg (by simp [hp]), List.takeWhile_nil]
  | cons c l ih => rw [List.cons_append, List.takeWhile_cons, List.takeWhile_cons, ih]

theorem dropWhile_newline : (l ++ '\n' :: after).dropWhile p = l.dropWhile p ++ '\n' :: after := by
  induction l with
  | nil => rw [List.nil_append, List.dropWhile_cons_of_neg (by simp [hp]), List.dropWhile_nil, List.nil_append]
  | cons c l ih =>
      rw [List.cons_append, List.dropWhile_cons, List.dropWhile_cons, ih]
      split <;> rfl

end Runs

section Cuts

variable (c : Char) (rest after : List Char)

theorem cutFraction_of_ne {c : Char} (hc : c ≠ '.') (rest : List Char) :
    cutFraction (c :: rest) = ([], c :: rest) := by
  unfold cutFraction
  split
  · rename_i heq
    cases heq
    exact absurd rfl hc
  · rfl

theorem cutFraction_newline : cutFraction (rest ++ '\n' :: after) =
    ((cutFraction rest).1, (cutFraction rest).2 ++ '\n' :: after) := by
  cases rest with
  | nil => rfl
  | cons c rest =>
      by_cases hc : c = '.'
      · subst hc
        cases rest with
        | nil => rfl
        | cons d rest =>
            simp only [cutFraction, List.cons_append, takeWhile_newline (p := Char.isDigit) rfl,
              dropWhile_newline (p := Char.isDigit) rfl]
            split <;> rfl
      · rw [List.cons_append, cutFraction_of_ne hc, cutFraction_of_ne hc, List.cons_append]

theorem cutNumber_newline :
    cutNumber c (rest ++ '\n' :: after) = ((cutNumber c rest).1, (cutNumber c rest).2 ++ '\n' :: after) := by
  unfold cutNumber
  rw [takeWhile_newline rfl, dropWhile_newline rfl, cutFraction_newline]

theorem pairKind?_newline : pairKind? c '\n' = none := by
  unfold pairKind?
  split <;> simp_all

theorem cutSymbol_newline :
    cutSymbol c (rest ++ '\n' :: after) = ((cutSymbol c rest).1, (cutSymbol c rest).2 ++ '\n' :: after) := by
  cases rest with
  | nil =>
      simp only [List.nil_append, cutSymbol, pairKind?_newline]
      split <;> rfl
  | cons d rest =>
      simp only [List.cons_append, cutSymbol]
      split
      · rfl
      · split <;> rfl

theorem cutString_newline (hclosed : ∀ body, (cutString rest).1 ≠ .openString body) :
    cutString (rest ++ '\n' :: after) = ((cutString rest).1, (cutString rest).2 ++ '\n' :: after) := by
  unfold cutString at hclosed ⊢
  cases hdrop : rest.dropWhile (· != '"') with
  | nil =>
      simp only [hdrop] at hclosed
      exact absurd rfl (hclosed _)
  | cons quote after' =>
      -- the closing quote stands in `rest`, so the newline is never reached
      have hdrop' : (rest ++ '\n' :: after).dropWhile (· != '"') = quote :: (after' ++ '\n' :: after) := by
        rw [List.dropWhile_append, hdrop]
        rfl
      have htake : (rest ++ '\n' :: after).takeWhile (· != '"') = rest.takeWhile (· != '"') := by
        have hsplit := congrArg List.length (List.takeWhile_append_dropWhile (p := (· != '"')) (l := rest))
        rw [hdrop, List.length_append, List.length_cons] at hsplit
        rw [List.takeWhile_append, if_neg (by omega)]
      rw [hdrop', htake]

theorem cut_symbol {c : Char} {rest : List Char} (hblank : ¬ isBlank c = true) (hname : ¬ isNameStart c = true)
    (hdigit : ¬ c.isDigit = true) (hquote : ¬ (c == '"') = true)
    (hslashes : ¬ (c = '/' ∧ rest.head? = some '/')) : cut c rest = cutSymbol c rest := by
  rw [cut, if_neg hblank, if_neg hname, if_neg hdigit, if_neg hquote]
  rintro after rfl rfl
  exact hslashes ⟨rfl, rfl⟩

/-- A segment that is no unclosed string ends before a newline at the latest. -/
theorem cut_newline (hclosed : ∀ body, (cut c rest).1 ≠ .openString body) :
    cut c (rest ++ '\n' :: after) = ((cut c rest).1, (cut c rest).2 ++ '\n' :: after) := by
  by_cases hblank : isBlank c = true
  · simp only [cut, if_pos hblank]
  by_cases hname : isNameStart c = true
  · simp only [cut, if_neg hblank, if_pos hname, cutName]
    rw [takeWhile_newline rfl, dropWhile_newline rfl]
  by_cases hdigit : c.isDigit = true
  · simp only [cut, if_neg hblank, if_neg hname, if_pos hdigit, cutNumber_newline]
  by_cases hquote : (c == '"') = true
  · simp only [cut, if_neg hblank, if_neg hname, if_neg hdigit, if_pos hquote] at hclosed ⊢
    exact cutString_newline rest after hclosed
  by_cases hslashes : c = '/' ∧ rest.head? = some '/'
  · obtain ⟨rfl, hhead⟩ := hslashes
    obtain ⟨rest, rfl⟩ := List.head?_eq_some_iff.mp hhead
    have hcomment : ∀ text : List Char, cut '/' ('/' :: text) = cutComment text := fun _ => rfl
    rw [List.cons_append, hcomment, hcomment, cutComment, takeWhile_newline rfl, dropWhile_newline rfl]
    rfl
  · have hslashes' : ¬ (c = '/' ∧ (rest ++ '\n' :: after).head? = some '/') := by
      cases rest with
      | nil => simp
      | cons d rest => exact hslashes
    rw [cut_symbol hblank hname hdigit hquote hslashes, cut_symbol hblank hname hdigit hquote hslashes']
    exact cutSymbol_newline c rest after

end Cuts

/-- **Two texts joined by a newline** are cut one after the other, if the first has no unclosed string. -/
theorem segments_newline (text after : List Char) (hclosed : ∀ body, .openString body ∉ segments text) :
    segments (text ++ '\n' :: after) = segments text ++ .blank '\n' :: segments after := by
  induction text using segments.induct with
  | case1 =>
      rw [List.nil_append, segments, segments]
      rfl
  | case2 c rest ih =>
      rw [segments] at hclosed
      have hcut := cut_newline c rest after fun body heq => hclosed body (heq ▸ List.mem_cons_self)
      have hrest := ih fun body hbody => hclosed body (List.mem_cons_of_mem _ hbody)
      rw [List.cons_append, segments, hcut, hrest, segments]
      rfl

/-! ## Streams -/

/-- An item of a stream on another line. -/
def ScanItem.mapLine (f : Nat → Nat) : ScanItem → ScanItem
  | .token t => .token (t.mapLine f)
  | .error e => .error { e with line := f e.line }

theorem Segment.item?_add (s : Segment) (line k : Nat) :
    s.item? (line + k) = (s.item? line).map (ScanItem.mapLine (· + k)) := by
  cases s <;> rfl

theorem itemsFrom_add (segs : List Segment) (line k : Nat) :
    itemsFrom (line + k) segs = (itemsFrom line segs).map (ScanItem.mapLine (· + k)) := by
  induction segs generalizing line with
  | nil => rfl
  | cons s segs ih =>
      have hline : line + k + newlines s.text = line + newlines s.text + k := by omega
      rw [itemsFrom, itemsFrom, hline, s.item?_add, ih]
      cases s.item? (line + newlines s.text) <;> rfl

/-- The number of newlines in segments. -/
def segmentLines (segs : List Segment) : Nat := newlines (segs.flatMap Segment.text)

theorem segmentLines_cons (s : Segment) (segs : List Segment) :
    segmentLines (s :: segs) = newlines s.text + segmentLines segs := by
  unfold segmentLines newlines
  rw [List.flatMap_cons, List.count_append]

/-- The stream of segments: the end token moves behind the segments that follow. -/
theorem itemsFrom_append (segs : List Segment) (line : Nat) :
    ∃ items, itemsFrom line segs = items ++ [.token (.endOfSource (line + segmentLines segs))] ∧
      ∀ after, itemsFrom line (segs ++ after) = items ++ itemsFrom (line + segmentLines segs) after := by
  induction segs generalizing line with
  | nil => exact ⟨[], rfl, fun _ => rfl⟩
  | cons s segs ih =>
      obtain ⟨items, hitems, hafter⟩ := ih (line + newlines s.text)
      have hline : line + segmentLines (s :: segs) = line + newlines s.text + segmentLines segs := by
        rw [segmentLines_cons]
        omega
      refine ⟨(s.item? (line + newlines s.text)).toList ++ items, ?_, fun after => ?_⟩
      · simp only [itemsFrom, hitems, hline]
        cases s.item? (line + newlines s.text) <;> rfl
      · simp only [List.cons_append, itemsFrom, hafter, hline]
        cases s.item? (line + newlines s.text) <;> rfl

theorem filterMap_token?_mapLine (items : List ScanItem) (f : Nat → Nat) :
    (items.map (ScanItem.mapLine f)).filterMap ScanItem.token? =
      (items.filterMap ScanItem.token?).map (Token.mapLine f) := by
  rw [List.filterMap_map, List.map_filterMap]
  refine congrArg (List.filterMap · items) (funext fun item => ?_)
  cases item <;> rfl

theorem filterMap_error?_mapLine {items : List ScanItem} (h : items.filterMap ScanItem.error? = [])
    (f : Nat → Nat) : (items.map (ScanItem.mapLine f)).filterMap ScanItem.error? = [] := by
  rw [List.filterMap_map, List.filterMap_eq_nil_iff] at *
  intro item hitem
  cases item with
  | token t => rfl
  | error e => cases h _ hitem

/-- An unclosed string is reported. -/
theorem error_of_openString {segs : List Segment} {body : List Char} (h : .openString body ∈ segs) (line : Nat) :
    ∃ e ∈ (itemsFrom line segs).filterMap ScanItem.error?, e.fault = .unterminatedString := by
  induction segs generalizing line with
  | nil => cases h
  | cons s segs ih =>
      rcases List.mem_cons.mp h with rfl | h
      · exact ⟨_, List.mem_cons_self, rfl⟩
      · obtain ⟨e, he, hfault⟩ := ih h (line + newlines s.text)
        refine ⟨e, ?_, hfault⟩
        rw [itemsFrom]
        cases s with
        | token | blank | comment => exact he
        | stray | openString => exact List.mem_cons_of_mem _ he

section Sources

variable {source : String}

/-- The stream of two sources joined by a newline. -/
theorem scan_newline (after : String) (h : ∀ e ∈ lexErrors source, e.fault ≠ .unterminatedString) : ∃ items k,
    scan source = items ++ [.token (.endOfSource k)] ∧
      scan (source ++ "\n" ++ after) = items ++ (scan after).map (ScanItem.mapLine (· + k)) := by
  have hclosed : ∀ body, .openString body ∉ segments source.toList := by
    intro body hbody
    obtain ⟨e, he, hfault⟩ := error_of_openString hbody 1
    exact h e he hfault
  have htext : (source ++ "\n" ++ after).toList = source.toList ++ '\n' :: after.toList := by
    simp
  obtain ⟨items, hitems, hafter⟩ := itemsFrom_append (segments source.toList) 1
  refine ⟨items, _, hitems, ?_⟩
  unfold scan
  rw [htext, segments_newline _ _ hclosed, hafter, ← itemsFrom_add, Nat.add_comm 1 (1 + _)]
  rfl

/-- **The tokens of two sources joined by a newline.** -/
theorem tokens_newline (after : String) (h : lexErrors source = []) : ∃ ts k, tokens source = ts ++ [.endOfSource k] ∧
    tokens (source ++ "\n" ++ after) = ts ++ (tokens after).map (Token.mapLine (· + k)) := by
  have hclosed : ∀ e ∈ lexErrors source, e.fault ≠ .unterminatedString := by simp [h]
  obtain ⟨items, k, hitems, hjoined⟩ := scan_newline after hclosed
  refine ⟨items.filterMap ScanItem.token?, k, ?_, ?_⟩
  · rw [tokens, hitems, List.filterMap_append]
    rfl
  · rw [tokens, hjoined, List.filterMap_append, filterMap_token?_mapLine]
    rfl

/-- **Two sources without lexical errors, joined by a newline, have none.** -/
theorem lexErrors_newline {after : String} (h : lexErrors source = []) (h' : lexErrors after = []) :
    lexErrors (source ++ "\n" ++ after) = [] := by
  have hclosed : ∀ e ∈ lexErrors source, e.fault ≠ .unterminatedString := by simp [h]
  obtain ⟨items, k, hitems, hjoined⟩ := scan_newline after hclosed
  rw [lexErrors, hitems, List.filterMap_append, List.append_eq_nil_iff] at h
  rw [lexErrors, hjoined, List.filterMap_append, h.1, filterMap_error?_mapLine h', List.append_nil]

end Sources

end Scriptlet
