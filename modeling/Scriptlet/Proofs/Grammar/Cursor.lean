import Scriptlet.Proofs.Grammar.Scripts

/-!
# Reading by position

The parser consumes a list of tokens.  Here its scripts are carried out on a list that stays as it is, with a position in
it: to look at a token is to index the list, which can fail, and every look is noted.

* `Cursor` — the position, with a log of what has been looked at; `Indexed` — the actions on it.
* `ReadStep.index`, `Rule.index`, `Indexed.declaration` — the steps and functions of the parser, by position.
* `Glance.Sound` — a look inside the list, or a declaration that takes a token; `Cursor.Orderly` — all looks were sound
  and none was behind an earlier one.
* `Simulates ts x y` — the action `y` by position does what the action `x` of the parser does.

Principal results: `Rule.simulates` — reading by position does what the parser does; `parse_finishes` — the parser
always finishes, inside its list of tokens and in front of the end token.
-/

set_option autoImplicit false

namespace Scriptlet

/-- What is noted of a run of the parser, by position. -/
inductive Glance where
  /-- A look at the token at the position. -/
  | peek (position : Nat)
  /-- A look at the token in front of the position. -/
  | previous (position : Nat)
  /-- A declaration of a program or block, from where it started to where reading went on. -/
  | declaration (start stop : Nat)
  deriving DecidableEq, Repr

/-- A position in a list of tokens. -/
structure Cursor where
  position : Nat
  nextId : NodeId
  errors : List ParseError
  /-- What has been noted, the latest first. -/
  log : List Glance
  deriving DecidableEq, Repr

namespace Cursor

/-- In front of the first token. -/
def start (firstId : NodeId) : Cursor := ⟨0, firstId, [], []⟩

def note (c : Cursor) (g : Glance) : Cursor := { c with log := g :: c.log }

def record (c : Cursor) (e : ParseError) : Cursor := { c with errors := c.errors ++ [e] }

end Cursor

/-- Why reading by position stopped early. -/
inductive IndexHalt where
  | mistake (e : ParseError)
  | exhausted
  /-- There is no token at the index. -/
  | outOfRange
  deriving DecidableEq, Repr

/-- An action on a position. -/
abbrev Indexed := EStateM IndexHalt Cursor

namespace Indexed

variable (ts : List Token)

/-- The token at the position. -/
def peek : Indexed Token := fun c =>
  match ts[c.position]? with
  | some t => .ok t (c.note (.peek c.position))
  | none => .error .outOfRange c

/-- The token in front of the position. -/
def previous : Indexed Token := fun c =>
  match c.position with
  | 0 => .error .outOfRange c
  | i + 1 => match ts[i]? with
    | some t => .ok t (c.note (.previous c.position))
    | none => .error .outOfRange c

/-- Moves past a token. -/
def forward : Indexed Unit := fun c => .ok () { c with position := c.position + 1 }

def halt {α : Type} (h : IndexHalt) : Indexed α := fun c => .error h c

def record (e : ParseError) : Indexed Unit := fun c => .ok () (c.record e)

def atEnd : Indexed Bool := do return (← peek ts).kind = .eof

def sees (test : TokenKind → Bool) : Indexed Bool := do
  if ← atEnd ts then return false else return test (← peek ts).kind

/-- Moves past a token, unless it is the end token, and answers with the token in front of the position. -/
def advance : Indexed Token := do
  if ← atEnd ts then previous ts
  else
    forward
    previous ts

/-- Moves on to where reading resumes, over at most the given number of tokens. -/
def resume : Nat → Indexed Unit
  | 0 => halt .exhausted
  | count + 1 => do
      if ← atEnd ts then return ()
      else if (← previous ts).kind = .semicolon then return ()
      else if startsStatement (← peek ts).kind then return ()
      else
        let _ ← advance ts
        resume count

/-- Moves past the token of a mistake and on to where reading resumes. -/
def synchronize : Indexed Unit := do
  let _ ← advance ts
  resume ts ts.length

/-- Whether the declarations of a block or program end here. -/
def closes (inBlock : Bool) : Indexed Bool := do
  if inBlock then
    if ← sees ts (· = .rightBrace) then return true else atEnd ts
  else atEnd ts

/-- Reads a declaration; `none` stands for one that was dropped. -/
def attempt (x : Indexed Stmt) : Indexed (Option Stmt) := fun c =>
  match x c with
  | .ok s c' => .ok (some s) (c'.note (.declaration c.position c'.position))
  | .error (.mistake e) c' =>
      match synchronize ts (c'.record e) with
      | .ok _ c'' => .ok none (c''.note (.declaration c.position c''.position))
      | .error h c'' => .error h c''
  | .error h c' => .error h c'

/-- What a step does by position. -/
def step : {α : Type} → ReadStep α → Indexed α
  | _, .peek => peek ts
  | _, .sees test => sees ts test
  | _, .atBraceOrEnd => closes ts true
  | _, .accept test => do if ← sees ts test then some <$> advance ts else return none
  | _, .skip => do
      let _ ← advance ts
      return ()
  | _, .fail mistake => do
      let t ← peek ts
      halt (.mistake (.at t mistake))
  | _, .report t mistake => record (.at t mistake)
  | _, .freshId => fun c => .ok c.nextId { c with nextId := c.nextId + 1 }

/-- What a command does by position, with the given functions. -/
def command (rule : ∀ {β : Type}, Rule β → Indexed β) (declaration : Indexed (Option Stmt)) :
    {α : Type} → Command α → Indexed α
  | _, .step s => step ts s
  | _, .rule r => rule r
  | _, .declaration inBlock => do
      if ← closes ts inBlock then return none else some <$> declaration

mutual
/-- What a function does by position when it may recurse to the given depth. -/
def rule : Nat → {α : Type} → Rule α → Indexed α
  | 0, _, _ => halt .exhausted
  | depth + 1, _, r => r.script.interpret (command ts (rule depth) (declaration depth))
/-- A declaration of a program or block by position. -/
def declaration : Nat → Indexed (Option Stmt)
  | 0 => halt .exhausted
  | depth + 1 => attempt ts (rule depth .declarationOrHalt)
end

end Indexed

/-! ## Orderly logs -/

/-- Where a note was made. -/
def Glance.position : Glance → Nat
  | .peek position => position
  | .previous position => position
  | .declaration _ stop => stop

/-- A look at a token of the list, or a declaration that takes a token. -/
def Glance.Sound (ts : List Token) : Glance → Prop
  | .peek position => position < ts.length
  | .previous position => 0 < position ∧ position - 1 < ts.length
  | .declaration start stop => start < stop

/-- All that was noted is sound, and was noted in the order of the positions. -/
structure Cursor.Orderly (ts : List Token) (c : Cursor) : Prop where
  sound : ∀ g ∈ c.log, g.Sound ts
  passed : ∀ g ∈ c.log, g.position ≤ c.position
  forward : c.log.Pairwise fun later earlier => earlier.position ≤ later.position

/-- The state of the parser at a position. -/
structure Cursor.Follows (ts : List Token) (c : Cursor) (st : ParseState) : Prop where
  rest : st.rest = ts.drop c.position
  ended : Ended st.rest
  nextId : c.nextId = st.nextId
  errors : c.errors = st.errors
  orderly : c.Orderly ts

theorem ParseState.advance_eq {st : ParseState} {t : Token} {rest : List Token} (hrest : st.rest = t :: rest)
    (hend : st.atEnd = false) : st.advance = { st with rest := rest } := by
  rw [ParseState.advance, hend, hrest]
  rfl

namespace Cursor

variable {ts : List Token} {c : Cursor} {st : ParseState}

theorem Orderly.note (h : c.Orderly ts) {g : Glance} (hsound : g.Sound ts) (hposition : g.position = c.position) :
    (c.note g).Orderly ts := by
  refine ⟨?_, ?_, ?_⟩
  · exact List.forall_mem_cons.mpr ⟨hsound, h.sound⟩
  · exact List.forall_mem_cons.mpr ⟨Nat.le_of_eq hposition, h.passed⟩
  · refine List.pairwise_cons.mpr ⟨fun g' hg' => ?_, h.forward⟩
    rw [hposition]
    exact h.passed g' hg'

theorem Orderly.forward_one (h : c.Orderly ts) : Orderly ts { c with position := c.position + 1 } :=
  ⟨h.sound, fun g hg => Nat.le_succ_of_le (h.passed g hg), h.forward⟩

theorem Follows.note (h : c.Follows ts st) {g : Glance} (hsound : g.Sound ts) (hposition : g.position = c.position) :
    (c.note g).Follows ts st :=
  ⟨h.rest, h.ended, h.nextId, h.errors, h.orderly.note hsound hposition⟩

theorem Follows.record (h : c.Follows ts st) (e : ParseError) : (c.record e).Follows ts (st.record e) :=
  ⟨h.rest, h.ended, h.nextId, congrArg (· ++ [e]) h.errors, ⟨h.orderly.sound, h.orderly.passed, h.orderly.forward⟩⟩

theorem Follows.stands (h : c.Follows ts st) : st.Stands ts :=
  ⟨h.ended, h.rest ▸ List.drop_suffix _ _⟩

theorem Follows.getElem?_position (h : c.Follows ts st) : ts[c.position]? = some st.peek := by
  obtain ⟨rest, hrest, -⟩ := ParseState.exists_rest h.ended
  rw [← List.head?_drop, ← h.rest, hrest]
  rfl

theorem Follows.position_lt (h : c.Follows ts st) : c.position < ts.length :=
  (List.getElem?_eq_some_iff.mp h.getElem?_position).1

theorem Follows.length_rest (h : c.Follows ts st) : st.rest.length = ts.length - c.position := by
  rw [h.rest, List.length_drop]

/-- Past a token that is not the end token. -/
theorem Follows.forward_one (h : c.Follows ts st) (hend : st.atEnd = false) :
    Follows ts { c with position := c.position + 1 } st.advance := by
  obtain ⟨rest, hrest, hended⟩ := ParseState.exists_rest h.ended
  rw [ParseState.advance_eq hrest hend]
  refine ⟨?_, hended hend, h.nextId, h.errors, h.orderly.forward_one⟩
  show rest = ts.drop (c.position + 1)
  rw [← List.drop_drop, ← h.rest, hrest]
  rfl

end Cursor

/-! ## Simulation -/

/-- From the given position, the action `y` does what `x` does in the state there. -/
def SimulatesAt {α : Type} (ts : List Token) (x : Parse α) (y : Indexed α) (c : Cursor) (st : ParseState) : Prop :=
  match x st with
  | .ok a st' => ∃ c', y c = .ok a c' ∧ c'.Follows ts st'
  | .error (.mistake e) st' => ∃ c', y c = .error (.mistake e) c' ∧ c'.Follows ts st'
  | .error .exhausted _ => ∃ c', y c = .error .exhausted c'

/-- By position, the action `y` does what `x` does. -/
def Simulates {α : Type} (ts : List Token) (x : Parse α) (y : Indexed α) : Prop :=
  ∀ (c : Cursor) (st : ParseState), c.Follows ts st → SimulatesAt ts x y c st

section Simulation

variable {α β : Type} {ts : List Token} {x : Parse α} {y : Indexed α} {c : Cursor} {st : ParseState}

theorem SimulatesAt.bind {f : α → Parse β} {g : α → Indexed β} (h : SimulatesAt ts x y c st)
    (hf : ∀ {a : α} {c' : Cursor} {st' : ParseState}, x st = .ok a st' → c'.Follows ts st' →
      SimulatesAt ts (f a) (g a) c' st') :
    SimulatesAt ts (x >>= f) (y >>= g) c st := by
  simp only [SimulatesAt, Bind.bind, EStateM.bind] at h ⊢
  cases hx : x st with
  | ok a st' =>
      rw [hx] at h
      obtain ⟨c', hy, hfollows⟩ := h
      rw [hy]
      exact hf hx hfollows
  | error halt st' =>
      rw [hx] at h
      cases halt with
      | mistake e =>
          obtain ⟨c', hy, hfollows⟩ := h
          exact ⟨c', by rw [hy], hfollows⟩
      | exhausted =>
          obtain ⟨c', hy⟩ := h
          exact ⟨c', by rw [hy]⟩

theorem Simulates.bind {f : α → Parse β} {g : α → Indexed β} (h : Simulates ts x y)
    (hf : ∀ a, Simulates ts (f a) (g a)) : Simulates ts (x >>= f) (y >>= g) :=
  fun c st hc => (h c st hc).bind fun {a c' st'} _ => hf a c' st'

theorem simulates_pure (a : α) : Simulates ts (pure a) (pure a) := fun c _ hc => ⟨c, rfl, hc⟩

theorem simulates_exhausted : Simulates ts (Parse.exhausted : Parse α) (Indexed.halt .exhausted) :=
  fun c _ _ => ⟨c, rfl⟩

theorem simulates_peek : Simulates ts Parse.peek (Indexed.peek ts) := by
  intro c st hc
  refine ⟨c.note (.peek c.position), ?_, hc.note hc.position_lt rfl⟩
  simp only [Indexed.peek, hc.getElem?_position]

theorem simulates_atEnd : Simulates ts Parse.atEnd (Indexed.atEnd ts) :=
  simulates_peek.bind fun _ => simulates_pure _

theorem simulates_sees (test : TokenKind → Bool) : Simulates ts (Parse.sees test) (Indexed.sees ts test) := by
  have hsees : Parse.sees test = (do
      if ← Parse.atEnd then return false else return test (← Parse.peek).kind) := by
    funext st
    simp only [Parse.sees, Parse.atEnd, Bind.bind, EStateM.bind]
    cases st.atEnd <;> rfl
  rw [hsees]
  refine simulates_atEnd.bind fun done => ?_
  cases done with
  | true => exact simulates_pure false
  | false => exact simulates_peek.bind fun _ => simulates_pure _

/-! ## Moving forward -/

namespace Cursor

theorem Follows.run_peek (h : c.Follows ts st) : Indexed.peek ts c = .ok st.peek (c.note (.peek c.position)) := by
  simp only [Indexed.peek, h.getElem?_position]

theorem Follows.notePeek (h : c.Follows ts st) : (c.note (.peek c.position)).Follows ts st := h.note h.position_lt rfl

theorem Follows.run_atEnd (h : c.Follows ts st) : Indexed.atEnd ts c = .ok st.atEnd (c.note (.peek c.position)) := by
  simp only [Indexed.atEnd, Bind.bind, EStateM.bind, h.run_peek]
  rfl

/-- Past the first token there is a token in front of the position. -/
theorem Follows.run_previous (h : c.Follows ts st) {t : Token} {i : Nat} (hposition : c.position = i + 1)
    (ht : ts[i]? = some t) : Indexed.previous ts c = .ok t (c.note (.previous c.position)) ∧
      (c.note (.previous c.position)).Follows ts st := by
  have hlt := h.position_lt
  refine ⟨?_, h.note ⟨by omega, by omega⟩ rfl⟩
  simp only [Indexed.previous, hposition, ht]

/-- A token that is not the end token is passed, and is then the token in front of the position. -/
theorem Follows.run_advance (h : c.Follows ts st) (hend : st.atEnd = false) :
    ∃ c', Indexed.advance ts c = .ok st.peek c' ∧ c'.Follows ts st.advance ∧ c'.position = c.position + 1 := by
  obtain ⟨hprevious, hfollows⟩ := (h.notePeek.forward_one hend).run_previous rfl h.getElem?_position
  refine ⟨_, ?_, hfollows, rfl⟩
  simp only [Indexed.advance, Bind.bind, EStateM.bind, h.run_atEnd, hend, Bool.false_eq_true, if_false,
    Indexed.forward, hprevious]

/-- In front of the end token nothing is passed. -/
theorem Follows.run_advance_end (h : c.Follows ts st) (hopen : ∀ t ∈ ts.head?, t.kind ≠ .eof)
    (hend : st.atEnd = true) : ∃ t c', Indexed.advance ts c = .ok t c' ∧ c'.Follows ts st ∧ c'.position = c.position := by
  -- The first token is not the end token, so something has been passed before.
  have hposition : 0 < c.position := by
    refine Nat.pos_of_ne_zero fun hzero => ?_
    have hfirst := h.getElem?_position
    rw [hzero, ← List.head?_eq_getElem?] at hfirst
    exact hopen _ hfirst (by simpa [ParseState.atEnd] using hend)
  obtain ⟨i, hi⟩ := Nat.exists_eq_succ_of_ne_zero (Nat.ne_of_gt hposition)
  have hlt := h.position_lt
  obtain ⟨t, htoken⟩ : ∃ t, ts[i]? = some t := ⟨_, List.getElem?_eq_getElem (by omega)⟩
  obtain ⟨hprevious, hfollows⟩ := h.notePeek.run_previous hi htoken
  refine ⟨t, _, ?_, hfollows, rfl⟩
  simp only [Indexed.advance, Bind.bind, EStateM.bind, h.run_atEnd, hend, if_true, hprevious]

/-- Reading resumes here: at the end, after a semicolon, or in front of a statement. -/
theorem Follows.resume_here (h : c.Follows ts st) {previous : Token} {i : Nat} (hi : c.position = i + 1)
    (hprevious : ts[i]? = some previous)
    (hstop : st.peek.kind = .eof ∨ previous.kind = .semicolon ∨ startsStatement st.peek.kind = true) (count : Nat) :
    ∃ c', Indexed.resume ts (count + 1) c = .ok () c' ∧ c'.Follows ts st := by
  obtain ⟨hrun, hfollows⟩ := h.notePeek.run_previous hi hprevious
  cases hend : st.atEnd with
  | true =>
      refine ⟨_, ?_, h.notePeek⟩
      simp only [Indexed.resume, Bind.bind, EStateM.bind, h.run_atEnd, hend, if_true]
      rfl
  | false =>
      have hkind : st.peek.kind ≠ .eof := by simpa [ParseState.atEnd] using hend
      by_cases hsemicolon : previous.kind = .semicolon
      · refine ⟨_, ?_, hfollows⟩
        simp only [Indexed.resume, Bind.bind, EStateM.bind, h.run_atEnd, hend, Bool.false_eq_true, if_false, hrun,
          hsemicolon, if_true]
        rfl
      · have hstarts := (hstop.resolve_left hkind).resolve_left hsemicolon
        refine ⟨_, ?_, hfollows.notePeek⟩
        simp only [Indexed.resume, Bind.bind, EStateM.bind, h.run_atEnd, hend, Bool.false_eq_true, if_false, hrun,
          hsemicolon, hfollows.run_peek, hstarts, if_true]
        rfl

/-- Reading does not resume here but at a later token. -/
theorem Follows.resume_later (h : c.Follows ts st) {previous : Token} {i : Nat} (hi : c.position = i + 1)
    (hprevious : ts[i]? = some previous)
    (hgo : ¬ (st.peek.kind = .eof ∨ previous.kind = .semicolon ∨ startsStatement st.peek.kind = true)) (count : Nat) :
    ∃ c', Indexed.resume ts (count + 1) c = Indexed.resume ts count c' ∧ c'.Follows ts st.advance ∧
      c'.position = c.position + 1 := by
  rw [not_or, not_or] at hgo
  obtain ⟨hkind, hsemicolon, hstarts⟩ := hgo
  have hend : st.atEnd = false := by simp [ParseState.atEnd, hkind]
  obtain ⟨hrun, hfollows⟩ := h.notePeek.run_previous hi hprevious
  obtain ⟨c', hadvance, hfollows', hposition⟩ := hfollows.notePeek.run_advance hend
  refine ⟨c', ?_, hfollows', hposition⟩
  simp only [Indexed.resume, Bind.bind, EStateM.bind, h.run_atEnd, hend, Bool.false_eq_true, if_false, hrun,
    hsemicolon, hfollows.run_peek, hstarts, hadvance]

/-- Reading resumes where the parser resumes. -/
theorem Follows.run_resume (count : Nat) : ∀ {c : Cursor} {st : ParseState} {i : Nat} {previous : Token},
    c.Follows ts st → c.position = i + 1 → ts[i]? = some previous → st.rest.length ≤ count →
      ∃ c', Indexed.resume ts count c = .ok () c' ∧
        c'.Follows ts { st with rest := resumeAfter previous st.rest } := by
  induction count with
  | zero =>
      intro c st i previous h _ _ hlength
      have := h.ended.length_pos
      omega
  | succ count ih =>
      intro c st i previous h hi hprevious hlength
      obtain ⟨rest, hrest, -⟩ := ParseState.exists_rest h.ended
      by_cases hstop : st.peek.kind = .eof ∨ previous.kind = .semicolon ∨ startsStatement st.peek.kind = true
      · have hhere : { st with rest := resumeAfter previous st.rest } = st := by
          rw [hrest, resumeAfter, if_pos hstop, ← hrest]
        rw [hhere]
        exact h.resume_here hi hprevious hstop count
      · obtain ⟨c', hrun, hfollows, hposition⟩ := h.resume_later hi hprevious hstop count
        have hadvanced : st.advance = { st with rest := rest } :=
          ParseState.advance_eq hrest (by simp [ParseState.atEnd, (not_or.mp hstop).1])
        have hshort : st.advance.rest.length ≤ count := by
          rw [hadvanced]
          rw [hrest, List.length_cons] at hlength
          exact Nat.le_of_succ_le_succ hlength
        have hlater : { st with rest := resumeAfter previous st.rest } =
            { st.advance with rest := resumeAfter st.peek st.advance.rest } := by
          rw [hadvanced, hrest, resumeAfter, if_neg hstop]
        rw [hrun, hlater]
        exact ih hfollows hposition h.getElem?_position hshort

/-- After a mistake, reading resumes where the parser resumes. -/
theorem Follows.run_synchronize (h : c.Follows ts st) (hopen : ∀ t ∈ ts.head?, t.kind ≠ .eof) :
    ∃ c', Indexed.synchronize ts c = .ok () c' ∧ c'.Follows ts { st with rest := synchronize st.rest } := by
  obtain ⟨rest, hrest, -⟩ := ParseState.exists_rest h.ended
  cases hend : st.atEnd with
  | true =>
      have hkind : st.peek.kind = .eof := by simpa [ParseState.atEnd] using hend
      have hstay : { st with rest := synchronize st.rest } = st := by
        rw [hrest, synchronize, if_pos hkind, ← hrest]
      obtain ⟨t, c', hadvance, hfollows, -⟩ := h.run_advance_end hopen hend
      obtain ⟨count, hcount⟩ := Nat.exists_eq_succ_of_ne_zero (Nat.ne_of_gt (Nat.zero_lt_of_lt h.position_lt))
      rw [hstay]
      refine ⟨c'.note (.peek c'.position), ?_, hfollows.notePeek⟩
      simp only [Indexed.synchronize, Bind.bind, EStateM.bind, hadvance, hcount, Indexed.resume, hfollows.run_atEnd,
        hend, if_true]
      rfl
  | false =>
      have hkind : st.peek.kind ≠ .eof := by simpa [ParseState.atEnd] using hend
      have hadvanced := ParseState.advance_eq hrest hend
      have hmove : { st with rest := synchronize st.rest } =
          { st.advance with rest := resumeAfter st.peek st.advance.rest } := by
        rw [hadvanced, hrest, synchronize, if_neg hkind]
      obtain ⟨c', hadvance, hfollows, hposition⟩ := h.run_advance hend
      have hlength : st.advance.rest.length ≤ ts.length := hfollows.stands.suffix.length_le
      obtain ⟨c'', hresume, hfollows'⟩ := Follows.run_resume ts.length hfollows hposition h.getElem?_position hlength
      refine ⟨c'', ?_, hmove ▸ hfollows'⟩
      simp only [Indexed.synchronize, Bind.bind, EStateM.bind, hadvance, hresume]

end Cursor

theorem simulates_closes (inBlock : Bool) : Simulates ts (Parse.closes inBlock) (Indexed.closes ts inBlock) := by
  cases inBlock with
  | false => exact simulates_atEnd
  | true =>
      have hcloses : Parse.closes true = (do
          if ← Parse.sees (· = .rightBrace) then return true else Parse.atEnd) := by
        funext st
        simp only [Parse.closes, Parse.atBraceOrEnd, Parse.sees, if_true, Bind.bind, EStateM.bind]
        cases hend : st.atEnd with
        | true => simp [Parse.atEnd, hend]
        | false =>
            by_cases hbrace : st.peek.kind = .rightBrace
            · simp [hbrace]
              rfl
            · simp [hbrace, Parse.atEnd, hend]
      rw [hcloses]
      refine (simulates_sees _).bind fun found => ?_
      cases found with
      | true => exact simulates_pure true
      | false => exact simulates_atEnd

theorem simulates_accept (test : TokenKind → Bool) :
    Simulates ts (Parse.accept? test) (Indexed.step ts (.accept test)) := by
  intro c st h
  obtain ⟨c', hsees, h'⟩ := simulates_sees test c st h
  show SimulatesAt ts (Parse.accept? test) (do
    if ← Indexed.sees ts test then some <$> Indexed.advance ts else return none) c st
  by_cases hfound : (!st.atEnd && test st.peek.kind) = true
  · have hend : st.atEnd = false := by simpa using (Bool.and_eq_true_iff.mp hfound).1
    obtain ⟨c'', hadvance, h'', -⟩ := h'.run_advance hend
    have hparse : Parse.accept? test st = .ok (some st.peek) st.advance := by rw [Parse.accept?, if_pos hfound]
    simp only [SimulatesAt, hparse]
    refine ⟨c'', ?_, h''⟩
    simp only [Bind.bind, EStateM.bind, hsees, hfound, if_true, Functor.map, EStateM.map, hadvance]
  · have hparse : Parse.accept? test st = .ok none st := by rw [Parse.accept?, if_neg hfound]
    simp only [SimulatesAt, hparse]
    refine ⟨c', ?_, h'⟩
    simp only [Bind.bind, EStateM.bind, hsees, hfound]
    rfl

/-- **Each step by position does what the step of the parser does.** -/
theorem simulates_step (hopen : ∀ t ∈ ts.head?, t.kind ≠ .eof) (s : ReadStep α) :
    Simulates ts s.run (Indexed.step ts s) := by
  cases s with
  | peek => exact simulates_peek
  | sees test => exact simulates_sees test
  | atBraceOrEnd => exact simulates_closes true
  | accept test => exact simulates_accept test
  | skip =>
      intro c st h
      cases hend : st.atEnd with
      | true =>
          obtain ⟨t, c', hadvance, h', -⟩ := h.run_advance_end hopen hend
          refine ⟨c', ?_, ?_⟩
          · simp only [Indexed.step, Bind.bind, EStateM.bind, hadvance]
            rfl
          · rwa [ParseState.advance, hend]
      | false =>
          obtain ⟨c', hadvance, h', -⟩ := h.run_advance hend
          refine ⟨c', ?_, h'⟩
          simp only [Indexed.step, Bind.bind, EStateM.bind, hadvance]
          rfl
  | fail mistake =>
      intro c st h
      refine ⟨_, ?_, h.notePeek⟩
      simp only [Indexed.step, Bind.bind, EStateM.bind, h.run_peek]
      rfl
  | report t mistake => exact fun c st h => ⟨_, rfl, h.record _⟩
  | freshId =>
      intro c st h
      refine ⟨{ c with nextId := c.nextId + 1 }, ?_, h.rest, h.ended, congrArg (· + 1) h.nextId, h.errors,
        h.orderly.sound, h.orderly.passed, h.orderly.forward⟩
      rw [← h.nextId]
      rfl

/-! ## Functions -/

theorem Cursor.Follows.noteDeclaration {c' : Cursor} {st' : ParseState} (h : c.Follows ts st) (h' : c'.Follows ts st')
    (hlength : st'.rest.length < st.rest.length) :
    (c'.note (.declaration c.position c'.position)).Follows ts st' := by
  refine h'.note ?_ rfl
  show c.position < c'.position
  have := h.length_rest
  have := h'.length_rest
  omega

/-- Where the declarations do not end, a declaration is read by position as the parser reads it, and takes a token. -/
theorem simulates_attempt {depth : Nat} {x : Indexed Stmt} (hopen : ∀ t ∈ ts.head?, t.kind ≠ .eof)
    (hx : Simulates ts (Parse.declarationOrHalt depth) x) (h : c.Follows ts st) (hend : st.atEnd = false) :
    SimulatesAt ts (Parse.declaration (depth + 1)) (Indexed.attempt ts x) c st := by
  have hconsumes : ∀ {s st'}, Parse.declaration (depth + 1) st = .ok s st' → st'.rest.length < st.rest.length :=
    Parse.declaration_consumes h.stands hend
  have hsim := hx c st h
  simp only [SimulatesAt, Parse.declaration] at hsim hconsumes ⊢
  cases hr : Parse.declarationOrHalt depth st with
  | ok s st' =>
      rw [hr] at hsim hconsumes
      obtain ⟨c', hx, h'⟩ := hsim
      refine ⟨_, ?_, h.noteDeclaration h' (hconsumes rfl)⟩
      simp only [Indexed.attempt, hx]
  | error halt st' =>
      rw [hr] at hsim hconsumes
      cases halt with
      | mistake e =>
          obtain ⟨c', hx, h'⟩ := hsim
          obtain ⟨c'', hsynchronize, h''⟩ := (h'.record e).run_synchronize hopen
          refine ⟨_, ?_, h.noteDeclaration h'' (hconsumes rfl)⟩
          simp only [Indexed.attempt, hx, hsynchronize]
      | exhausted =>
          obtain ⟨c', hx⟩ := hsim
          exact ⟨c', by simp only [Indexed.attempt, hx]⟩

theorem Parse.atEnd_of_closes {inBlock : Bool} {st' : ParseState} (h : Parse.closes inBlock st = .ok false st') :
    st'.atEnd = false := by
  cases inBlock with
  | false =>
      injection h with hclosed hst
      subst hst
      exact hclosed
  | true =>
      injection h with hclosed hst
      subst hst
      exact (Bool.or_eq_false_iff.mp hclosed).1

theorem simulates_command {depth : Nat} {rule : ∀ {β : Type}, Rule β → Indexed β} {declaration : Indexed (Option Stmt)}
    (hopen : ∀ t ∈ ts.head?, t.kind ≠ .eof) (hrule : ∀ {β : Type} (r : Rule β), Simulates ts (r.run depth) (rule r))
    (hdeclaration : ∀ c st, c.Follows ts st → st.atEnd = false →
      SimulatesAt ts (Parse.declaration depth) declaration c st) (command : Command α) :
    Simulates ts (command.run depth) (Indexed.command ts rule declaration command) := by
  cases command with
  | step s => exact simulates_step hopen s
  | rule r => exact hrule r
  | declaration inBlock =>
      intro c st h
      refine (simulates_closes inBlock c st h).bind fun {closed c' st'} hcloses h' => ?_
      cases closed with
      | true => exact simulates_pure none c' st' h'
      | false =>
          simp only [Bool.false_eq_true, if_false]
          rw [← bind_pure_comp, ← bind_pure_comp]
          have hdecl := hdeclaration c' st' h' (Parse.atEnd_of_closes hcloses)
          exact hdecl.bind fun _ h'' => simulates_pure _ _ _ h''

theorem Script.simulates {depth : Nat} {handle : ∀ {β : Type}, Command β → Indexed β}
    (h : ∀ {β : Type} (c : Command β), Simulates ts (c.run depth) (handle c)) (s : Script α) :
    Simulates ts (s.run depth) (s.interpret handle) := by
  induction s with
  | done a => exact simulates_pure a
  | ask c next ih => exact (h c).bind ih

/-- **Reading by position does what the parser does.** -/
theorem Rule.simulates (hopen : ∀ t ∈ ts.head?, t.kind ≠ .eof) (depth : Nat) :
    (∀ {β : Type} (r : Rule β), Simulates ts (r.run depth) (Indexed.rule ts depth r)) ∧
      ∀ c st, c.Follows ts st → st.atEnd = false →
        SimulatesAt ts (Parse.declaration depth) (Indexed.declaration ts depth) c st := by
  induction depth with
  | zero =>
      refine ⟨fun r => ?_, fun c st h _ => ?_⟩
      · rw [Rule.run_zero, Indexed.rule]
        exact simulates_exhausted
      · rw [Indexed.declaration]
        exact simulates_exhausted c st h
  | succ depth ih =>
      refine ⟨fun r => ?_, fun c st h hend => ?_⟩
      · rw [Rule.run_succ, Indexed.rule]
        exact Script.simulates (simulates_command hopen ih.1 ih.2) r.script
      · rw [Indexed.declaration]
        exact simulates_attempt hopen (ih.1 .declarationOrHalt) h hend

/-- In front of the end token there are no declarations. -/
theorem simulates_noDeclarations (h : c.Follows ts st) (hend : st.atEnd = true) (depth : Nat) :
    SimulatesAt ts (Parse.declarations (depth + 1)) (Indexed.rule ts (depth + 1) .declarations) c st := by
  have hcloses : Indexed.closes ts false c = .ok true (c.note (.peek c.position)) := by
    rw [← hend]
    exact h.run_atEnd
  simp only [SimulatesAt, Parse.declarations_atEnd hend]
  refine ⟨c.note (.peek c.position), ?_, h.notePeek⟩
  rw [Indexed.rule]
  show (Indexed.closes ts false >>= _ >>= _) c = _
  simp only [Bind.bind, EStateM.bind, hcloses, if_true]
  rfl

end Simulation

section Outcome

variable {ts : List Token}

theorem Ended.follows_start (h : Ended ts) (firstId : NodeId) : (Cursor.start firstId).Follows ts ⟨ts, firstId, []⟩ :=
  ⟨rfl, h, rfl, rfl, by simp [Cursor.start], by simp [Cursor.start], .nil⟩

/-- The declarations of a whole list of tokens are read by position as the parser reads them. -/
theorem Ended.simulates_declarations (h : Ended ts) (firstId : NodeId) (depth : Nat) :
    SimulatesAt ts (Parse.declarations (depth + 1)) (Indexed.rule ts (depth + 1) .declarations) (.start firstId)
      ⟨ts, firstId, []⟩ := by
  have hstart := h.follows_start firstId
  cases h with
  | last ht => exact simulates_noDeclarations hstart (by simp [ParseState.atEnd, ParseState.peek, ht]) depth
  | @next t ts ht _ =>
      have hopen : ∀ t' ∈ (t :: ts).head?, t'.kind ≠ .eof := by
        rintro _ ⟨⟩
        exact ht
      exact (Rule.simulates hopen (depth + 1)).1 .declarations _ _ hstart

theorem Ended.length_eq_one {st : ParseState} (h : Ended st.rest) (hend : st.atEnd = true) : st.rest.length = 1 := by
  obtain ⟨rest, nextId, errors⟩ := st
  cases h with
  | last _ => rfl
  | next ht _ => simp [ParseState.atEnd, ParseState.peek, ht] at hend

/-- **The parser always finishes.**  Read by position to any sufficient depth, a list of tokens that ends with its only
end token gives the outcome of the parser; no index was outside the list, nothing that was looked at lies behind an
earlier look, every declaration of the program and of its blocks took a token, and the end token is the next one. -/
theorem parse_finishes (firstId : NodeId) (h : Ended ts) : ∃ p, ∀ depth, parseDepth ts.length ≤ depth →
    ∃ c, Indexed.rule ts depth .declarations (.start firstId) = .ok p c ∧ c.Orderly ts ∧ c.position + 1 = ts.length ∧
      parse firstId ts = ⟨if c.errors = [] then .ok p else .error c.errors, c.nextId⟩ := by
  have hroom : Parse.Room ts 17 (parseDepth ts.length) ⟨ts, firstId, []⟩ := by
    refine ⟨⟨h, List.suffix_rfl⟩, ?_⟩
    show 16 * ts.length + 17 ≤ 16 * (ts.length + 2)
    omega
  obtain ⟨p, st, hr, hpass, hend⟩ := Parse.declarations_ok _ hroom
  refine ⟨p, fun depth hdepth => ?_⟩
  have hdeep : Parse.declarations depth ⟨ts, firstId, []⟩ = .ok p st := by
    rcases Parse.declarations_grows hdepth ⟨ts, firstId, []⟩ with ⟨st', hexhausted⟩ | heq
    · rw [hr] at hexhausted
      cases hexhausted
    · rw [heq, hr]
  obtain ⟨depth, rfl⟩ : ∃ d, depth = d + 1 := Nat.exists_eq_succ_of_ne_zero fun hzero => by
    unfold parseDepth at hdepth
    omega
  have hsim := h.simulates_declarations firstId depth
  simp only [SimulatesAt, hdeep] at hsim
  obtain ⟨c, hrun, hfollows⟩ := hsim
  refine ⟨c, hrun, hfollows.orderly, ?_, ?_⟩
  · have hone := hpass.ended.length_eq_one hend
    have hrest := hfollows.length_rest
    omega
  · unfold parse
    rw [hr, hfollows.errors, hfollows.nextId]
    simp only [List.isEmpty_iff]

/-- A block that is not closed, with a variable that has no name: reading fails twice, the second time at the end
token. -/
def unclosedBlock : List Token :=
  [⟨.leftBrace, "\x7b", 1⟩, ⟨.kwVar, "var", 1⟩, ⟨.semicolon, ";", 1⟩, ⟨.eof, "", 1⟩]

theorem parse_finishes_unclosedBlock : Ended unclosedBlock ∧
    ∃ p c, Indexed.rule unclosedBlock (parseDepth 4) .declarations (.start 0) = .ok p c ∧ c.Orderly unclosedBlock ∧
      c.position = 3 ∧ parse 0 unclosedBlock = ⟨if c.errors = [] then .ok p else .error c.errors, c.nextId⟩ := by
  have hended : Ended unclosedBlock := .next nofun (.next nofun (.next nofun (.last rfl)))
  obtain ⟨p, hp⟩ := parse_finishes 0 hended
  obtain ⟨c, hrun, horderly, hposition, hparse⟩ := hp (parseDepth 4) (Nat.le_refl _)
  exact ⟨hended, p, c, hrun, horderly, Nat.succ.inj hposition, hparse⟩

end Outcome

end Scriptlet
