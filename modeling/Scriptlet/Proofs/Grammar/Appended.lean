import Scriptlet.Proofs.Grammar.Scripts

/-!
# More tokens after a program

A list of tokens is read twice: with its end token, and with more tokens in its place.  The two runs differ only from
where the first looks at its end token.  There most functions of the parser may go different ways.  A statement does
not: it ends with a token of its own, or in front of a token that is no `else`.

* `ParseState.Longer eof more st st'` — the tokens left in `st'` are those left in `st`, with `more` in place of `eof`.
* `ParseState.Onward` — errors are kept, and the end token is not passed.
* `AgreesInside` — an action that does the same on the longer list, or stops in front of the end token; `Agrees` — one
  that does the same in any case; `Settles` — one that does so and cannot start in front of the end token.

Principal results: `Rule.agreesInside` — all functions of the parser agree inside the shorter list; `stmtSettles` —
statements settle; `parse_append` — what follows a program is parsed as if it stood alone.
-/

set_option autoImplicit false

namespace Scriptlet

/-! ## States -/

namespace ParseState

/-- The same state of a longer list, with more tokens in place of the end token. -/
structure Longer (eof : Token) (more : List Token) (st st' : ParseState) : Prop where
  rest : ∃ ts, (∀ t ∈ ts, t.kind ≠ .eof) ∧ st.rest = ts ++ [eof] ∧ st'.rest = ts ++ more
  nextId : st'.nextId = st.nextId
  errors : st'.errors = st.errors

/-- What reading does to a state: errors are kept, and the end token is not passed. -/
structure Onward (eof : Token) (st st' : ParseState) : Prop where
  errors : st.errors <+: st'.errors
  spent : st.rest = [eof] → st'.rest = [eof]

variable {eof : Token} {more : List Token} {st st' st₁ : ParseState}

theorem Onward.refl (eof : Token) (st : ParseState) : Onward eof st st := ⟨List.prefix_rfl, id⟩

theorem Onward.trans (h : Onward eof st st₁) (h' : Onward eof st₁ st') : Onward eof st st' :=
  ⟨h.errors.trans h'.errors, fun hrest => h'.spent (h.spent hrest)⟩

theorem Onward.errors_eq_nil (h : Onward eof st st') (herrors : st'.errors = []) : st.errors = [] :=
  List.prefix_nil.mp (herrors ▸ h.errors)

theorem peek_spent (h : st.rest = [eof]) : st.peek = eof := by rw [peek, h]

theorem atEnd_spent (heof : eof.kind = .eof) (h : st.rest = [eof]) : st.atEnd = true := by
  simp [atEnd, peek_spent h, heof]

theorem onward_advance (heof : eof.kind = .eof) (st : ParseState) : Onward eof st st.advance := by
  unfold advance
  split
  · exact .refl eof st
  · rename_i hend
    exact ⟨List.prefix_rfl, fun hrest => absurd (atEnd_spent heof hrest) hend⟩

theorem onward_recover (heof : eof.kind = .eof) (st : ParseState) (e : ParseError) : Onward eof st (st.recover e) := by
  refine ⟨List.prefix_append _ _, fun hrest => ?_⟩
  show synchronize st.rest = [eof]
  rw [hrest, synchronize, if_pos heof]

/-- Either only the end token is left, or the next token is the same in both states. -/
theorem Longer.spent_or_same (h : Longer eof more st st') :
    st.rest = [eof] ∨ st.atEnd = false ∧ st'.peek = st.peek ∧ Longer eof more st.advance st'.advance := by
  obtain ⟨ts, hts, hrest, hrest'⟩ := h.rest
  cases ts with
  | nil => exact .inl hrest
  | cons t ts =>
      obtain ⟨ht, hts⟩ := List.forall_mem_cons.mp hts
      have hpeek : st.peek = t := by rw [peek, hrest, List.cons_append]
      have hpeek' : st'.peek = t := by rw [peek, hrest', List.cons_append]
      have hend : st.atEnd = false := by simp [atEnd, hpeek, ht]
      have hend' : st'.atEnd = false := by simp [atEnd, hpeek', ht]
      refine .inr ⟨hend, hpeek'.trans hpeek.symm, ?_⟩
      simp only [advance, hend, hend', Bool.false_eq_true, if_false]
      exact ⟨⟨ts, hts, by rw [hrest]; rfl, by rw [hrest']; rfl⟩, h.nextId, h.errors⟩

/-- Where only the end token is left, the longer list goes on with the tokens in its place. -/
theorem Longer.rest_spent (h : Longer eof more st st') (hspent : st.rest = [eof]) : st'.rest = more := by
  obtain ⟨ts, -, hrest, hrest'⟩ := h.rest
  obtain rfl : ts = [] := by simpa [hspent] using hrest
  exact hrest'

theorem atEnd_congr (h : st'.peek = st.peek) : st'.atEnd = st.atEnd := by rw [atEnd, atEnd, h]

end ParseState

/-! ## Actions -/

open ParseState

/-- What an action leaves, with or without an answer, is onward. -/
def Parse.Onwards {α : Type} (eof : Token) (x : Parse α) : Prop :=
  ∀ st, match x st with
    | .ok _ st' => Onward eof st st'
    | .error _ st' => Onward eof st st'

/-- An answer without errors is also given on the longer list, or only the end token is left after it. -/
structure Parse.AgreesInside {α : Type} (eof : Token) (more : List Token) (x : Parse α) : Prop where
  onwards : Onwards eof x
  agrees : ∀ {st st' a st₁}, Longer eof more st st' → x st = .ok a st₁ → st₁.errors = [] →
    st₁.rest = [eof] ∨ ∃ st₁', x st' = .ok a st₁' ∧ Longer eof more st₁ st₁'

/-- An answer without errors is also given on the longer list. -/
structure Parse.Agrees {α : Type} (eof : Token) (more : List Token) (x : Parse α) : Prop where
  onwards : Onwards eof x
  agrees : ∀ {st st' a st₁}, Longer eof more st st' → x st = .ok a st₁ → st₁.errors = [] →
    ∃ st₁', x st' = .ok a st₁' ∧ Longer eof more st₁ st₁'

/-- An answer without errors is also given on the longer list, and none is given in front of the end token. -/
structure Parse.Settles {α : Type} (eof : Token) (more : List Token) (x : Parse α) : Prop
    extends Parse.Agrees eof more x where
  needs : ∀ {st a st₁}, st.rest = [eof] → x st ≠ .ok a st₁

namespace Parse

section Actions

variable {α β : Type} {eof : Token} {more : List Token} {x : Parse α} {f : α → Parse β}

/-! ### Onwards -/

theorem Onwards.ok (h : Onwards eof x) {st st₁ : ParseState} {a : α} (hx : x st = .ok a st₁) : Onward eof st st₁ := by
  have := h st
  rwa [hx] at this

theorem Onwards.error (h : Onwards eof x) {st st₁ : ParseState} {halt : ParseHalt} (hx : x st = .error halt st₁) :
    Onward eof st st₁ := by
  have := h st
  rwa [hx] at this

theorem onwards_pure (a : α) : Onwards eof (pure a : Parse α) := fun st => .refl eof st

theorem Onwards.bind (hx : Onwards eof x) (hf : ∀ a, Onwards eof (f a)) : Onwards eof (x >>= f) := by
  intro st
  simp only [Bind.bind, EStateM.bind]
  cases hr : x st with
  | ok a st₁ =>
      have hfirst := hx.ok hr
      cases hr' : f a st₁ with
      | ok b st₂ => simpa only [hr'] using hfirst.trans ((hf a).ok hr')
      | error halt st₂ => simpa only [hr'] using hfirst.trans ((hf a).error hr')
  | error halt st₁ => exact hx.error hr

/-- A composed action has an answer if both parts have. -/
theorem bind_ok {st st₂ : ParseState} {b : β} (h : (x >>= f) st = .ok b st₂) :
    ∃ a st₁, x st = .ok a st₁ ∧ f a st₁ = .ok b st₂ := by
  simp only [Bind.bind, EStateM.bind] at h
  cases hr : x st with
  | ok a st₁ =>
      rw [hr] at h
      exact ⟨a, st₁, rfl, h⟩
  | error halt st₁ =>
      rw [hr] at h
      cases h

theorem run_bind_ok {st st₁ : ParseState} {a : α} (h : x st = .ok a st₁) : (x >>= f) st = f a st₁ := by
  simp only [Bind.bind, EStateM.bind, h]

/-! ### Composition -/

theorem Agrees.inside (h : Agrees eof more x) : AgreesInside eof more x :=
  ⟨h.onwards, fun hst hx herrors => .inr (h.agrees hst hx herrors)⟩

theorem Settles.inside (h : Settles eof more x) : AgreesInside eof more x := h.toAgrees.inside

theorem agrees_pure (a : α) : Agrees eof more (pure a : Parse α) := by
  refine ⟨onwards_pure a, ?_⟩
  rintro st st' _ _ hst ⟨⟩ -
  exact ⟨st', rfl, hst⟩

theorem Agrees.bind (hx : Agrees eof more x) (hf : ∀ a, Agrees eof more (f a)) : Agrees eof more (x >>= f) := by
  refine ⟨hx.onwards.bind fun a => (hf a).onwards, fun hst hrun herrors => ?_⟩
  obtain ⟨a, st₁, hfirst, hsecond⟩ := bind_ok hrun
  obtain ⟨st₁', hfirst', hst₁⟩ := hx.agrees hst hfirst (((hf a).onwards.ok hsecond).errors_eq_nil herrors)
  rw [run_bind_ok hfirst']
  exact (hf a).agrees hst₁ hsecond herrors

theorem AgreesInside.bind (hx : AgreesInside eof more x) (hf : ∀ a, AgreesInside eof more (f a)) :
    AgreesInside eof more (x >>= f) := by
  refine ⟨hx.onwards.bind fun a => (hf a).onwards, fun hst hrun herrors => ?_⟩
  obtain ⟨a, st₁, hfirst, hsecond⟩ := bind_ok hrun
  have honward := (hf a).onwards.ok hsecond
  rcases hx.agrees hst hfirst (honward.errors_eq_nil herrors) with hspent | ⟨st₁', hfirst', hst₁⟩
  · exact .inl (honward.spent hspent)
  · rw [run_bind_ok hfirst']
    exact (hf a).agrees hst₁ hsecond herrors

theorem AgreesInside.map {g : α → β} (hx : AgreesInside eof more x) : AgreesInside eof more (g <$> x) := by
  rw [← bind_pure_comp]
  exact hx.bind fun a => (agrees_pure (g a)).inside

/-- What settles comes last: an action before it cannot have stopped in front of the end token. -/
theorem AgreesInside.settles (hx : AgreesInside eof more x) (hf : ∀ a, Settles eof more (f a)) :
    Settles eof more (x >>= f) := by
  refine ⟨⟨hx.onwards.bind fun a => (hf a).onwards, fun hst hrun herrors => ?_⟩, fun hspent hrun => ?_⟩
  · obtain ⟨a, st₁, hfirst, hsecond⟩ := bind_ok hrun
    have honward := (hf a).onwards.ok hsecond
    rcases hx.agrees hst hfirst (honward.errors_eq_nil herrors) with hspent | ⟨st₁', hfirst', hst₁⟩
    · exact absurd hsecond ((hf a).needs hspent)
    · rw [run_bind_ok hfirst']
      exact (hf a).agrees hst₁ hsecond herrors
  · obtain ⟨a, st₁, hfirst, hsecond⟩ := bind_ok hrun
    exact (hf a).needs ((hx.onwards.ok hfirst).spent hspent) hsecond

/-- What settles comes first: it cannot start in front of the end token. -/
theorem Settles.bind (hx : Settles eof more x) (hf : ∀ a, Agrees eof more (f a)) : Settles eof more (x >>= f) := by
  refine ⟨hx.toAgrees.bind hf, fun hspent hrun => ?_⟩
  obtain ⟨a, st₁, hfirst, -⟩ := bind_ok hrun
  exact hx.needs hspent hfirst

theorem Settles.map {g : α → β} (hx : Settles eof more x) : Settles eof more (g <$> x) := by
  rw [← bind_pure_comp]
  exact hx.bind fun a => agrees_pure (g a)

theorem settles_exhausted : Settles eof more (exhausted : Parse α) :=
  ⟨⟨fun st => .refl eof st, fun _ hx => nomatch hx⟩, fun _ hx => nomatch hx⟩

/-! ### Steps -/

theorem onwards_step (heof : eof.kind = .eof) (s : ReadStep α) : Onwards eof s.run := by
  intro st
  cases s with
  | peek | sees | atBraceOrEnd | fail => exact .refl eof st
  | accept test =>
      by_cases htest : (!st.atEnd && test st.peek.kind) = true
      · simp only [ReadStep.run, accept?, if_pos htest]
        exact onward_advance heof st
      · simp only [ReadStep.run, accept?, if_neg htest]
        exact .refl eof st
  | skip => exact onward_advance heof st
  | report t mistake => exact ⟨List.prefix_append _ _, id⟩
  | freshId => exact ⟨List.prefix_rfl, id⟩

/-- In front of a token that both lists have, a step answers the same. -/
theorem step_same {s : ReadStep α} {st st' st₁ : ParseState} {a : α} (hst : Longer eof more st st')
    (hopen : st.rest ≠ [eof]) (hrun : s.run st = .ok a st₁) :
    ∃ st₁', s.run st' = .ok a st₁' ∧ Longer eof more st₁ st₁' := by
  obtain ⟨-, hpeek, hadvanced⟩ := hst.spent_or_same.resolve_left hopen
  have hend : st'.atEnd = st.atEnd := atEnd_congr hpeek
  cases s with
  | peek =>
      cases hrun
      exact ⟨st', by rw [← hpeek]; rfl, hst⟩
  | sees test =>
      cases hrun
      exact ⟨st', by rw [← hpeek, ← hend]; rfl, hst⟩
  | atBraceOrEnd =>
      cases hrun
      exact ⟨st', by rw [← hpeek, ← hend]; rfl, hst⟩
  | accept test =>
      simp only [ReadStep.run, accept?, hpeek, hend] at hrun ⊢
      split at hrun <;> rename_i htest <;> cases hrun
      · exact ⟨_, if_pos htest, hadvanced⟩
      · exact ⟨_, if_neg htest, hst⟩
  | skip =>
      cases hrun
      exact ⟨_, rfl, hadvanced⟩
  | fail mistake => cases hrun
  | report t mistake =>
      cases hrun
      exact ⟨_, rfl, hst.rest, hst.nextId, congrArg (· ++ _) hst.errors⟩
  | freshId =>
      cases hrun
      refine ⟨{ st' with nextId := st'.nextId + 1 }, ?_, hst.rest, congrArg (· + 1) hst.nextId, hst.errors⟩
      rw [← hst.nextId]
      rfl

theorem agreesInside_step (heof : eof.kind = .eof) (s : ReadStep α) : AgreesInside eof more s.run := by
  refine ⟨onwards_step heof s, fun {st _ _ _} hst hrun _ => ?_⟩
  by_cases hspent : st.rest = [eof]
  · exact .inl (((onwards_step heof s).ok hrun).spent hspent)
  · exact .inr (step_same hst hspent hrun)

/-- In front of the end token nothing is accepted. -/
theorem accept_spent (heof : eof.kind = .eof) {st : ParseState} (hspent : st.rest = [eof]) (test : TokenKind → Bool) :
    accept? test st = .ok none st := by
  rw [accept?, atEnd_spent heof hspent]
  rfl

/-- A token that is expected stands in both lists. -/
theorem settles_expect (heof : eof.kind = .eof) (kind : TokenKind) (mistake : Mistake) :
    Settles eof more (expect kind mistake) := by
  have needs : ∀ {st t st₁}, st.rest = [eof] → expect kind mistake st ≠ .ok t st₁ := by
    intro st t st₁ hspent hrun
    rw [expect, run_bind_ok (accept_spent heof hspent _)] at hrun
    cases hrun
  refine ⟨⟨?_, fun {st st' t st₁} hst hrun _ => ?_⟩, needs⟩
  · refine (onwards_step heof (.accept (· = kind))).bind fun found => ?_
    cases found with
    | some t => exact onwards_pure t
    | none => exact onwards_step heof (.fail mistake)
  · have hopen : st.rest ≠ [eof] := fun hspent => needs hspent hrun
    obtain ⟨found, st₂, haccept, hfound⟩ := bind_ok hrun
    obtain ⟨st₂', haccept', hst₂⟩ := step_same (s := .accept (· = kind)) hst hopen haccept
    cases found with
    | none => cases hfound
    | some t' =>
        cases hfound
        exact ⟨st₂', run_bind_ok haccept', hst₂⟩

/-- Neither the end token nor the token in its place is an `else`. -/
theorem agrees_acceptElse (heof : eof.kind = .eof) (helse : ∀ t ∈ more.head?, t.kind ≠ .kwElse) :
    Agrees eof more (accept? (· = .kwElse)) := by
  refine ⟨onwards_step heof (.accept (· = .kwElse)), fun {st st' found st₁} hst hrun _ => ?_⟩
  by_cases hspent : st.rest = [eof]
  · rw [accept_spent heof hspent] at hrun
    cases hrun
    have hrest' := hst.rest_spent hspent
    have hkind : st'.peek.kind ≠ .kwElse := by
      cases more with
      | nil => simp [ParseState.peek, hrest', Token.endOfSource]
      | cons t more =>
          rw [ParseState.peek, hrest']
          exact helse t rfl
    exact ⟨st', if_neg (by simp [hkind]), hst⟩
  · exact step_same (s := .accept (· = .kwElse)) hst hspent hrun

/-! ### Declarations -/

/-- A declaration that is dropped has an error. -/
theorem declaration_ok {depth : Nat} {st st₁ : ParseState} {s : Option Stmt}
    (h : declaration (depth + 1) st = .ok s st₁) (herrors : st₁.errors = []) :
    ∃ s', s = some s' ∧ declarationOrHalt depth st = .ok s' st₁ := by
  simp only [declaration] at h
  split at h
  · rename_i s' st' hrun
    cases h
    exact ⟨s', rfl, hrun⟩
  · cases h
    simp [ParseState.recover, ParseState.record] at herrors
  · cases h

theorem onwards_declaration (heof : eof.kind = .eof) {depth : Nat} (h : Onwards eof (declarationOrHalt depth)) :
    Onwards eof (declaration (depth + 1)) := by
  intro st
  simp only [declaration]
  cases hr : declarationOrHalt depth st with
  | ok s st₁ => exact h.ok hr
  | error halt st₁ =>
      cases halt with
      | mistake e => exact (h.error hr).trans (onward_recover heof st₁ e)
      | exhausted => exact h.error hr

theorem AgreesInside.declaration (heof : eof.kind = .eof) {depth : Nat}
    (h : AgreesInside eof more (declarationOrHalt depth)) : AgreesInside eof more (declaration (depth + 1)) := by
  refine ⟨onwards_declaration heof h.onwards, fun hst hdeclaration herrors => ?_⟩
  obtain ⟨s, rfl, hrun⟩ := declaration_ok hdeclaration herrors
  refine (h.agrees hst hrun herrors).imp_right ?_
  rintro ⟨st₁', hrun', hst₁⟩
  exact ⟨st₁', by simp only [Parse.declaration, hrun'], hst₁⟩

theorem Settles.declaration (heof : eof.kind = .eof) {depth : Nat} (h : Settles eof more (declarationOrHalt depth)) :
    Agrees eof more (declaration (depth + 1)) := by
  refine ⟨onwards_declaration heof h.onwards, fun hst hdeclaration herrors => ?_⟩
  obtain ⟨s, rfl, hrun⟩ := declaration_ok hdeclaration herrors
  obtain ⟨st₁', hrun', hst₁⟩ := h.agrees hst hrun herrors
  exact ⟨st₁', by simp only [Parse.declaration, hrun'], hst₁⟩

end Actions

end Parse

/-! ## Functions of the parser -/

section Functions

open Parse

variable {eof : Token} {more : List Token}

theorem Script.agreesInside {depth : Nat} (h : ∀ {β : Type} (c : Command β), AgreesInside eof more (c.run depth))
    {α : Type} (s : Script α) : AgreesInside eof more (s.run depth) := by
  induction s with
  | done a => exact (agrees_pure a).inside
  | ask c next ih => exact (h c).bind ih

theorem Command.agreesInside (heof : eof.kind = .eof) {depth : Nat}
    (hrule : ∀ {β : Type} (r : Rule β), AgreesInside eof more (r.run depth))
    (hdeclaration : AgreesInside eof more (Parse.declaration depth)) {α : Type} (c : Command α) :
    AgreesInside eof more (c.run depth) := by
  cases c with
  | step s => exact agreesInside_step heof s
  | rule r => exact hrule r
  | declaration inBlock =>
      have hcloses : AgreesInside eof more (Parse.closes inBlock) := by
        cases inBlock with
        | true => exact agreesInside_step heof .atBraceOrEnd
        | false =>
            exact (agreesInside_step heof .peek).bind fun t => (agrees_pure (decide (t.kind = .eof))).inside
      refine hcloses.bind fun closed => ?_
      split
      · exact (agrees_pure none).inside
      · exact hdeclaration.map

/-- **The functions of the parser agree inside the shorter list.** -/
theorem Rule.agreesInside (heof : eof.kind = .eof) (depth : Nat) :
    (∀ {α : Type} (r : Rule α), AgreesInside eof more (r.run depth)) ∧
      AgreesInside eof more (Parse.declaration depth) := by
  induction depth with
  | zero =>
      refine ⟨fun r => ?_, settles_exhausted.inside⟩
      rw [Rule.run_zero]
      exact settles_exhausted.inside
  | succ depth ih =>
      refine ⟨fun r => ?_, (ih.1 .declarationOrHalt).declaration heof⟩
      rw [Rule.run_succ]
      exact Script.agreesInside (Command.agreesInside heof ih.1 ih.2) r.script

theorem Script.inside (heof : eof.kind = .eof) (depth : Nat) {α : Type} (s : Script α) :
    AgreesInside eof more (s.run depth) :=
  have hrules := Rule.agreesInside heof depth
  Script.agreesInside (Command.agreesInside heof hrules.1 hrules.2) s

/-! ## Statements -/

section Statements

variable {depth : Nat} (heof : eof.kind = .eof)
include heof

theorem Parse.expression_inside (depth : Nat) : AgreesInside eof more (Parse.expression depth) :=
  (Rule.agreesInside heof depth).1 .expression

theorem Parse.peek_inside : AgreesInside eof more Parse.peek := agreesInside_step heof .peek

theorem Parse.skip_inside : AgreesInside eof more Parse.skip := agreesInside_step heof .skip

theorem Parse.accept_inside (test : TokenKind → Bool) : AgreesInside eof more (Parse.accept? test) :=
  agreesInside_step heof (.accept test)

theorem Parse.expect_inside (kind : TokenKind) (mistake : Mistake) :
    AgreesInside eof more (Parse.expect kind mistake) :=
  (settles_expect heof kind mistake).inside

theorem expressionUnless_inside (kind : TokenKind) : AgreesInside eof more (Parse.expressionUnless depth kind) := by
  rw [← Script.run_expressionUnless]
  exact Script.inside heof depth _

theorem forInit_inside : AgreesInside eof more (Parse.forInit depth) := by
  rw [← Script.run_forInit]
  exact Script.inside heof depth _

/-- An expected token and then an answer. -/
theorem settles_last {α : Type} (kind : TokenKind) (mistake : Mistake) (a : α) :
    Settles eof more (do let _ ← Parse.expect kind mistake; return a) :=
  (settles_expect heof kind mistake).bind fun _ => agrees_pure a

theorem settles_variableDecl : Settles eof more (Parse.variableDecl depth) := by
  unfold Parse.variableDecl
  refine (expect_inside heof _ _).settles fun name => (accept_inside heof _).settles fun equals => ?_
  cases equals with
  | some _ => exact (expression_inside heof depth).map.settles fun init => settles_last heof _ _ _
  | none => exact settles_last heof _ _ _

theorem settles_expressionStmt : Settles eof more (Parse.expressionStmt depth) :=
  (expression_inside heof depth).settles fun _ => settles_last heof _ _ _

theorem settles_printStmt : Settles eof more (Parse.printStmt depth) :=
  (expression_inside heof depth).settles fun _ => settles_last heof _ _ _

theorem settles_returnStmt (line : Nat) : Settles eof more (Parse.returnStmt depth line) :=
  (expressionUnless_inside heof _).settles fun _ => settles_last heof _ _ _

theorem settles_classDecl : Settles eof more (Parse.classDecl depth) := by
  cases depth with
  | zero => exact settles_exhausted
  | succ depth =>
      rw [Parse.classDecl]
      refine (expect_inside heof _ _).settles fun name => (expect_inside heof _ _).settles fun _ => ?_
      exact ((Rule.agreesInside heof depth).1 .methodList).settles fun methods => settles_last heof _ _ _

end Statements

/-- The statement parsers of a depth settle. -/
structure StmtSettles (eof : Token) (more : List Token) (depth : Nat) : Prop where
  declarationOrHalt : Settles eof more (Parse.declarationOrHalt depth)
  statement : Settles eof more (Parse.statement depth)
  callable : ∀ kind, Settles eof more (Parse.callable depth kind)
  ifStmt : Settles eof more (Parse.ifStmt depth)
  forStmt : Settles eof more (Parse.forStmt depth)
  whileStmt : Settles eof more (Parse.whileStmt depth)
  block : Settles eof more (Parse.block depth)

section StatementSteps

variable {depth : Nat} (heof : eof.kind = .eof) (ih : StmtSettles eof more depth)
include heof ih

theorem StmtSettles.declarationOrHalt_succ : Settles eof more (Parse.declarationOrHalt (depth + 1)) := by
  rw [Parse.declarationOrHalt]
  refine (peek_inside heof).settles fun t => ?_
  split
  · exact (skip_inside heof).settles fun _ => settles_variableDecl heof
  · exact ih.statement

theorem StmtSettles.statement_succ : Settles eof more (Parse.statement (depth + 1)) := by
  rw [Parse.statement]
  refine (peek_inside heof).settles fun t => ?_
  have keyword : ∀ {y : Unit → Parse Stmt}, Settles eof more (y ()) → Settles eof more (Parse.skip >>= y) :=
    fun hy => (skip_inside heof).settles fun _ => hy
  split
  · exact keyword (settles_classDecl heof)
  · exact keyword (settles_returnStmt heof t.line)
  · exact keyword (ih.callable _).map
  · exact keyword ih.ifStmt
  · exact keyword ih.forStmt
  · exact keyword ih.whileStmt
  · exact keyword (settles_printStmt heof)
  · exact keyword ih.block.map
  · exact settles_expressionStmt heof

theorem StmtSettles.callable_succ (kind : DeclKind) : Settles eof more (Parse.callable (depth + 1) kind) := by
  rw [Parse.callable]
  refine (expect_inside heof _ _).settles fun name => (expect_inside heof _ _).settles fun _ => ?_
  refine (agreesInside_step heof (.sees (· = .rightParen))).settles fun closed => ?_
  have body : ∀ params, Settles eof more (do
      let _ ← Parse.expect .rightParen .parenAfterParameters
      let _ ← Parse.expect .leftBrace (.braceBeforeDeclBody kind)
      let statements ← Parse.block depth
      return FunctionDecl.mk name.ident params statements) := by
    intro params
    refine (expect_inside heof _ _).settles fun _ => (expect_inside heof _ _).settles fun _ => ?_
    exact ih.block.bind fun statements => agrees_pure _
  split
  · exact body []
  · exact ((Rule.agreesInside heof depth).1 (.parameters 0)).settles body

/-- The one place where a statement looks at the token after it. -/
theorem StmtSettles.ifStmt_succ (helse : ∀ t ∈ more.head?, t.kind ≠ .kwElse) :
    Settles eof more (Parse.ifStmt (depth + 1)) := by
  rw [Parse.ifStmt]
  refine (expect_inside heof _ _).settles fun _ => (expression_inside heof depth).settles fun test => ?_
  refine (expect_inside heof _ _).settles fun _ => ih.statement.bind fun whenTrue => ?_
  refine (agrees_acceptElse heof helse).bind fun found => ?_
  cases found with
  | some _ => exact ih.statement.toAgrees.bind fun whenFalse => agrees_pure _
  | none => exact agrees_pure _

theorem StmtSettles.forStmt_succ : Settles eof more (Parse.forStmt (depth + 1)) := by
  rw [Parse.forStmt]
  refine (expect_inside heof _ _).settles fun _ => (forInit_inside heof).settles fun init => ?_
  refine (expressionUnless_inside heof _).settles fun test => (expect_inside heof _ _).settles fun _ => ?_
  refine (expressionUnless_inside heof _).settles fun step => (expect_inside heof _ _).settles fun _ => ?_
  exact ih.statement.bind fun body => agrees_pure _

theorem StmtSettles.whileStmt_succ : Settles eof more (Parse.whileStmt (depth + 1)) := by
  rw [Parse.whileStmt]
  refine (expect_inside heof _ _).settles fun _ => (expression_inside heof depth).settles fun test => ?_
  exact (expect_inside heof _ _).settles fun _ => ih.statement.bind fun body => agrees_pure _

theorem StmtSettles.block_succ : Settles eof more (Parse.block (depth + 1)) := by
  rw [Parse.block]
  refine (agreesInside_step heof .atBraceOrEnd).settles fun closed => ?_
  split
  · exact settles_last heof _ _ _
  · exact (Rule.agreesInside heof depth).2.settles fun first => ih.block.bind fun others => agrees_pure _

end StatementSteps

/-- **Statements settle.** -/
theorem stmtSettles (heof : eof.kind = .eof) (helse : ∀ t ∈ more.head?, t.kind ≠ .kwElse) (depth : Nat) :
    StmtSettles eof more depth := by
  induction depth with
  | zero => constructor <;> intros <;> exact settles_exhausted
  | succ depth ih =>
      exact ⟨ih.declarationOrHalt_succ heof, ih.statement_succ heof, ih.callable_succ heof, ih.ifStmt_succ heof helse,
        ih.forStmt_succ heof, ih.whileStmt_succ heof, ih.block_succ heof⟩

end Functions

/-! ## Programs -/

section Programs

variable {eof : Token} {more : List Token}

theorem Parse.declaration_agrees (heof : eof.kind = .eof) (helse : ∀ t ∈ more.head?, t.kind ≠ .kwElse) (depth : Nat) :
    Agrees eof more (Parse.declaration depth) := by
  cases depth with
  | zero => exact settles_exhausted.toAgrees
  | succ depth => exact (stmtSettles heof helse depth).declarationOrHalt.declaration heof

/-- **The declarations of a program, and then those that follow it.** -/
theorem Parse.declarations_append (heof : eof.kind = .eof) (helse : ∀ t ∈ more.head?, t.kind ≠ .kwElse)
    {deep : Nat} {q : Program} {st₂ : ParseState} (depth : Nat) : ∀ {st st' st₁ : ParseState} {p : Program},
      Longer eof more st st' → Parse.declarations depth st = .ok p st₁ → st₁.errors = [] →
      Parse.declarations deep ⟨more, st₁.nextId, []⟩ = .ok q st₂ →
      Parse.declarations (depth + deep) st' = .ok (p ++ q) st₂ := by
  induction depth with
  | zero =>
      intro st st' st₁ p _ hrun
      cases hrun
  | succ depth ih =>
      intro st st' st₁ p hst hrun herrors hmore
      by_cases hspent : st.rest = [eof]
      · -- the program ends here, and the longer list goes on with `more`
        rw [Parse.declarations_atEnd (atEnd_spent heof hspent)] at hrun
        cases hrun
        have hst' : st' = ⟨more, st.nextId, []⟩ := by
          rw [← hst.nextId, ← herrors, ← hst.errors, ← hst.rest_spent hspent]
        rw [hst', List.nil_append]
        exact (Parse.declarations_grows (Nat.le_add_left deep (depth + 1))).ok hmore
      · obtain ⟨hend, hpeek, -⟩ := hst.spent_or_same.resolve_left hspent
        have hend' : st'.atEnd = false := (atEnd_congr hpeek).trans hend
        rw [Parse.declarations_next hend] at hrun
        obtain ⟨first, st₃, hfirst, hrun⟩ := bind_ok hrun
        obtain ⟨others, st₄, hothers, hlast⟩ := bind_ok hrun
        cases hlast
        have hinside : AgreesInside eof more (Parse.declarations depth) :=
          (Rule.agreesInside heof depth).1 .declarations
        have herrors₃ : st₃.errors = [] := (hinside.onwards.ok hothers).errors_eq_nil herrors
        obtain ⟨st₃', hfirst', hst₃⟩ := (Parse.declaration_agrees heof helse depth).agrees hst hfirst herrors₃
        have hfirst'' := (Parse.declaration_deeper (Nat.le_add_right depth deep)).ok hfirst'
        have hothers' := ih hst₃ hothers herrors hmore
        rw [Nat.succ_add, Parse.declarations_next hend', run_bind_ok hfirst'', run_bind_ok hothers', List.append_assoc]
        rfl

/-- The outcome of parsing, from the declarations read to any depth. -/
theorem parse_of_declarations {firstId : NodeId} {ts : List Token} {depth : Nat} {p : Program} {st : ParseState}
    (h : Ended ts) (hrun : Parse.declarations depth ⟨ts, firstId, []⟩ = .ok p st) :
    parse firstId ts = ⟨if st.errors = [] then .ok p else .error st.errors, st.nextId⟩ := by
  obtain ⟨p', st', hparse, -⟩ := declarations_parseDepth firstId h
  have hdeep := (Parse.declarations_grows (Nat.le_add_right depth (parseDepth ts.length))).ok hrun
  have hdeep' := (Parse.declarations_grows (Nat.le_add_left (parseDepth ts.length) depth)).ok hparse
  rw [hdeep] at hdeep'
  cases hdeep'
  simp only [parse, hparse, List.isEmpty_iff]

/-- **What follows a program is parsed as if it stood alone**, with the ids that the program leaves free.  It may be
broken in any way, but must not start with an `else`, which could belong to an `if` of the program. -/
theorem parse_append (firstId : NodeId) {ts more : List Token} {eof : Token} {p : Program}
    (hts : ∀ t ∈ ts, t.kind ≠ .eof) (heof : eof.kind = .eof) (hp : (parse firstId (ts ++ [eof])).program = .ok p)
    (hmore : Ended more) (helse : ∀ t ∈ more.head?, t.kind ≠ .kwElse) :
    let alone := parse (parse firstId (ts ++ [eof])).nextId more
    parse firstId (ts ++ more) = ⟨alone.program.map (p ++ ·), alone.nextId⟩ := by
  have hended : Ended (ts ++ [eof]) := ended_append hts heof
  obtain ⟨p', st, hrun, -⟩ := declarations_parseDepth firstId hended
  have hparse := parse_of_declarations hended hrun
  obtain ⟨herrors, rfl⟩ : st.errors = [] ∧ p' = p := by
    rw [hparse] at hp
    by_cases herrors : st.errors = []
    · rw [if_pos herrors] at hp
      exact ⟨herrors, Except.ok.inj hp⟩
    · rw [if_neg herrors] at hp
      cases hp
  obtain ⟨q, st₂, hq, -⟩ := declarations_parseDepth st.nextId hmore
  have hstart : Longer eof more ⟨ts ++ [eof], firstId, []⟩ ⟨ts ++ more, firstId, []⟩ :=
    ⟨⟨ts, hts, rfl, rfl⟩, rfl, rfl⟩
  have hjoined := Parse.declarations_append heof helse _ hstart hrun herrors hq
  rw [hparse, parse_of_declarations hmore hq, parse_of_declarations (hmore.prepend hts) hjoined]
  dsimp only
  split <;> rfl

/-- The tokens of `if (a) b = c;`, which an `else` could continue. -/
def openBranch : List Token :=
  [⟨.kwIf, "if", 1⟩, ⟨.leftParen, "(", 1⟩, ⟨.identifier, "a", 1⟩, ⟨.rightParen, ")", 1⟩, ⟨.identifier, "b", 1⟩,
    ⟨.equal, "=", 1⟩, ⟨.identifier, "c", 1⟩, ⟨.semicolon, ";", 1⟩]

/-- The tokens of `* d; print }`: both statements are broken, and the second stops in front of the end token. -/
def brokenRest : List Token :=
  [⟨.star, "*", 2⟩, ⟨.identifier, "d", 2⟩, ⟨.semicolon, ";", 2⟩, ⟨.kwPrint, "print", 2⟩, ⟨.rightBrace, "\x7d", 2⟩,
    ⟨.eof, "", 2⟩]

theorem parse_append_broken : (∀ t ∈ openBranch, t.kind ≠ .eof) ∧ Ended brokenRest ∧
    (∀ t ∈ brokenRest.head?, t.kind ≠ .kwElse) ∧
    (parse 5 (openBranch ++ [Token.endOfSource 1])).program =
      .ok [.ifElse (.var 5 ⟨"a", 1⟩) (.expr (.assign 8 ⟨"b", 1⟩ (.var 7 ⟨"c", 1⟩))) none] ∧
    parse 5 (openBranch ++ brokenRest) = ⟨.error [⟨2, .at "*", .expression⟩, ⟨2, .at "\x7d", .expression⟩], 9⟩ := by
  have hts : ∀ t ∈ openBranch, t.kind ≠ .eof := by decide
  have hmore : Ended brokenRest :=
    .next nofun (.next nofun (.next nofun (.next nofun (.next nofun (.last rfl)))))
  have helse : ∀ t ∈ brokenRest.head?, t.kind ≠ .kwElse := by decide
  have hp : (parse 5 (openBranch ++ [Token.endOfSource 1])).program =
      .ok [.ifElse (.var 5 ⟨"a", 1⟩) (.expr (.assign 8 ⟨"b", 1⟩ (.var 7 ⟨"c", 1⟩))) none] := rfl
  exact ⟨hts, hmore, helse, hp, parse_append 5 hts rfl hp hmore helse⟩

end Programs

end Scriptlet
