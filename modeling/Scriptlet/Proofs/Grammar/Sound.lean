import Scriptlet.Proofs.Grammar.Rules

/-!
# What the parser reads is in the grammar

`Sound x D` — whenever the action `x` ends well and no error is on record, the tokens it consumed, its
result and the tokens it left are related by `D`.  The relation of a whole action is put together from
those of its parts (`Sound.bind`); an error on record stays there, so none of the parts can have
recorded one.

Principal results: `exprSound`, `stmtSound`, `program_sound` — the parser only returns
trees that the grammar derives from the consumed tokens, and an `if` without `else` is never followed by
an `else`.
-/

set_option autoImplicit false

namespace Scriptlet.Grammar

open Parse

/-- The first token of a list, an end token for none. -/
def first (ts : List Token) : Token := (ParseState.mk ts 0 []).peek

@[simp] theorem first_cons (t : Token) (ts : List Token) : first (t :: ts) = t := rfl

theorem first_rest (st : ParseState) : first st.rest = st.peek := rfl

/-- An action that ends without an error on record has read what `D` says. -/
def Sound {α : Type} (x : Parse α) (D : List Token → α → List Token → Prop) : Prop :=
  ∀ ⦃st a st'⦄, x st = .ok a st' → st'.errors = [] →
    st.errors = [] ∧ ∃ ts, st.rest = ts ++ st'.rest ∧ (∀ t ∈ ts, t.kind ≠ .eof) ∧ D ts a st'.rest

section Actions

variable {α β : Type} {x : Parse α} {f : α → Parse β}

theorem Sound.mono {D D' : List Token → α → List Token → Prop} (h : Sound x D)
    (hD : ∀ ts a rest, D ts a rest → D' ts a rest) : Sound x D' := by
  intro st a st' hx he
  obtain ⟨h₁, ts, h₂, h₃, h₄⟩ := h hx he
  exact ⟨h₁, ts, h₂, h₃, hD _ _ _ h₄⟩

theorem Sound.pure {a : α} {D : List Token → α → List Token → Prop}
    (h : ∀ rest, D [] a rest) : Sound (pure a) D := by
  intro st b st' hx he
  cases hx
  exact ⟨he, [], rfl, by simp, h _⟩

/-- The tokens of a sequence are those of its first part followed by those of its second. -/
theorem Sound.bind {D₁ : List Token → α → List Token → Prop} {D : List Token → β → List Token → Prop}
    (hx : Sound x D₁)
    (hf : ∀ a, Sound (f a) fun ts b rest => ∀ l, D₁ l a (ts ++ rest) → D (l ++ ts) b rest) :
    Sound (x >>= f) D := by
  intro st b st' h he
  simp only [Bind.bind, EStateM.bind] at h
  split at h
  · rename_i a st₁ h₁
    obtain ⟨e₁, r, hr, nr, hD⟩ := hf a h he
    obtain ⟨e₀, l, hl, nl, hD₁⟩ := hx h₁ e₁
    refine ⟨e₀, l ++ r, by rw [hl, hr, List.append_assoc], ?_, hD l ?_⟩
    · intro t ht
      exact (List.mem_append.mp ht).elim (nl t) (nr t)
    · rw [← hr]; exact hD₁
  · cases h

theorem Sound.map {g : α → β} {D₁ : List Token → α → List Token → Prop}
    {D : List Token → β → List Token → Prop} (hx : Sound x D₁)
    (h : ∀ ts a rest, D₁ ts a rest → D ts (g a) rest) : Sound (g <$> x) D := by
  intro st b st' hm he
  simp only [Functor.map, EStateM.map] at hm
  split at hm
  · rename_i a st₁ h₁
    cases hm
    obtain ⟨e₀, ts, hts, nts, hD⟩ := hx h₁ he
    exact ⟨e₀, ts, hts, nts, h _ _ _ hD⟩
  · cases hm

theorem sound_exhausted {D : List Token → α → List Token → Prop} : Sound (exhausted (α := α)) D := by
  intro st a st' h
  cases h

theorem sound_fail {m : Mistake} {D : List Token → α → List Token → Prop} :
    Sound (fail (α := α) m) D := by
  intro st a st' h
  cases h

theorem sound_report {t : Token} {m : Mistake} {D : List Token → Unit → List Token → Prop} :
    Sound (report t m) D := by
  intro st a st' h he
  cases h
  simp [ParseState.record] at he

theorem sound_value (a : α) : Sound (pure a) fun ts b _ => ts = [] ∧ b = a :=
  Sound.pure fun _ => ⟨rfl, rfl⟩

theorem sound_freshId : Sound freshId fun ts _ _ => ts = [] := by
  intro st a st' h he
  cases h
  exact ⟨he, [], rfl, by simp, rfl⟩

/-- Consuming a token takes it off the rest, unless it is the end token. -/
theorem rest_eq_peek_cons {st : ParseState} (h : st.atEnd = false) :
    st.rest = st.peek :: st.advance.rest := by
  unfold ParseState.advance
  rw [h]
  unfold ParseState.atEnd ParseState.peek at *
  split at h
  · rename_i t ts hr; simp [hr]
  · simp [Token.endOfSource] at h

theorem ParseState.advance_errors (st : ParseState) : st.advance.errors = st.errors := by
  unfold ParseState.advance
  split <;> rfl

/-- What an accepted token was, or which token was not accepted. -/
def Accepted (test : TokenKind → Bool) (ts : List Token) (o : Option Token) (rest : List Token) :
    Prop :=
  match o with
  | some t => ts = [t] ∧ t.kind ≠ .eof ∧ test t.kind = true
  | none => ts = [] ∧ ((first rest).kind = .eof ∨ test (first rest).kind = false)

theorem sound_accept? (test : TokenKind → Bool) : Sound (accept? test) (Accepted test) := by
  intro st o st' h he
  unfold accept? at h
  split at h
  · rename_i hc
    simp only [Bool.and_eq_true, Bool.not_eq_true'] at hc
    cases h
    have hend : st.peek.kind ≠ .eof := by simpa [ParseState.atEnd] using hc.1
    exact ⟨by simpa [ParseState.advance_errors] using he, [st.peek], rest_eq_peek_cons hc.1,
      by simpa using hend, rfl, hend, hc.2⟩
  · rename_i hc
    cases h
    refine ⟨he, [], rfl, by simp, rfl, ?_⟩
    simp only [Bool.and_eq_true, Bool.not_eq_true', not_and, Bool.not_eq_true] at hc
    by_cases hend : st.atEnd = false
    · exact .inr (hc hend)
    · left; rw [first_rest]; simpa [ParseState.atEnd] using hend

theorem sound_expect (kind : TokenKind) (m : Mistake) :
    Sound (expect kind m) fun ts t _ => ts = [t] ∧ t.kind = kind := by
  unfold expect
  refine (sound_accept? _).bind fun o => ?_
  cases o with
  | some t =>
      refine Sound.pure fun rest l hl => ?_
      exact ⟨by simpa using hl.1, by simpa using hl.2.2⟩
  | none => exact sound_fail

theorem sound_sees (test : TokenKind → Bool) : Sound (sees test) fun ts b rest =>
    ts = [] ∧ (b = true → test (first rest).kind = true) := by
  intro st o st' h he
  cases h
  refine ⟨he, [], rfl, by simp, rfl, fun hb => ?_⟩
  simp only [Bool.and_eq_true] at hb
  exact hb.2

theorem sound_peek : Sound peek fun ts t rest => ts = [] ∧ t = first rest := by
  intro st a st' h he
  cases h
  exact ⟨he, [], rfl, by simp, rfl, rfl⟩

/-- After a look at the next token: the token is consumed. -/
theorem Sound.skip {g : Unit → Parse β} {D : List Token → List Token → β → List Token → Prop}
    {t : Token} (ht : t.kind ≠ .eof) (hg : Sound (g ()) fun ts b rest => D [] (t :: ts) b rest) :
    Sound (Parse.skip >>= g) fun ts b rest => ∀ l, l = [] ∧ t = first (ts ++ rest) →
      D l ts b rest := by
  intro st b st' h he
  have h : g () st.advance = .ok b st' := h
  obtain ⟨e₀, ts, hts, nts, hD⟩ := hg h he
  by_cases hend : st.atEnd = false
  · refine ⟨by rwa [ParseState.advance_errors] at e₀, st.peek :: ts, ?_, ?_, ?_⟩
    · rw [rest_eq_peek_cons hend, hts]; rfl
    · simpa using ⟨by simpa [ParseState.atEnd] using hend, nts⟩
    · rintro l ⟨rfl, hf⟩
      simp only [List.cons_append, first_cons] at hf
      simpa [hf] using hD
  · -- only the end token is left, so it is the token that was seen
    have hadv : st.advance = st := by simp [ParseState.advance, hend]
    rw [hadv] at e₀ hts
    refine ⟨e₀, ts, hts, nts, ?_⟩
    rintro l ⟨rfl, hf⟩
    refine absurd ?_ ht
    rw [hf, ← hts, first_rest]
    simpa [ParseState.atEnd] using hend

/-- After a look at the next token: the token is left. -/
theorem Sound.stay {D : List Token → List Token → α → List Token → Prop} {t : Token}
    (hx : Sound x fun ts a rest => D [] ts a rest) :
    Sound x fun ts a rest => ∀ l, l = [] ∧ t = first (ts ++ rest) → D l ts a rest := by
  refine hx.mono fun ts a rest hD => ?_
  rintro l ⟨rfl, -⟩
  exact hD

/-- What may report a list that is too long has not reported it. -/
theorem sound_unlessReported {c : Prop} [Decidable c] {m : Mistake} {y : Unit → Parse β}
    {D D' : List Token → β → List Token → Prop} (hy : Sound (y ()) D)
    (hD : ¬c → ∀ ts b rest, D ts b rest → D' ts b rest) :
    Sound (if c then (do let t ← peek; let r ← report t m; y r) else y ()) D' := by
  split
  · refine sound_peek.bind fun t => (sound_report (D := fun _ _ _ => False)).bind fun _ => ?_
    exact hy.mono fun _ _ _ _ _ h => h.elim
  · rename_i hc
    exact hy.mono (hD hc)

end Actions

/-! ## Expressions -/

theorem sound_assignTo (target : Expr) (equals : Token) (value : Expr) :
    Sound (assignTo target equals value) fun ts e _ => ts = [] ∧
      ((∃ id name id', target = .var id name ∧ e = .assign id' name value) ∨
        ∃ object name, target = .get object name ∧ e = .set object name value) := by
  unfold assignTo
  split
  · rename_i id name
    refine sound_freshId.bind fun id' => Sound.pure fun rest l hl => ?_
    exact ⟨by simp [hl], .inl ⟨id, name, id', rfl, rfl⟩⟩
  · rename_i object name
    exact Sound.pure fun rest => ⟨rfl, .inr ⟨object, name, rfl, rfl⟩⟩
  · exact (sound_report (D := fun _ _ _ => False)).bind fun _ =>
      Sound.pure fun _ _ h => h.elim

theorem sound_updateOf (target : Expr) (op : Token) (value : Expr) :
    Sound (updateOf target op value) fun ts e _ => ts = [] ∧
      ∃ id name id', target = .var id name ∧ e = .update id' name op value := by
  unfold updateOf
  split
  · rename_i id name
    refine sound_freshId.bind fun id' => Sound.pure fun rest l hl => ?_
    exact ⟨by simp [hl], id, name, id', rfl, rfl⟩
  · exact (sound_report (D := fun _ _ _ => False)).bind fun _ =>
      Sound.pure fun _ _ h => h.elim

/-- The expression parsers of a depth are sound. -/
structure ExprSound (depth : Nat) : Prop where
  expression : Sound (Parse.expression depth) fun ts e _ => DerivesExpr .expression ts e
  ternary : Sound (Parse.ternary depth) fun ts e _ => DerivesExpr .ternary ts e
  chain : ∀ level, Sound (Parse.chain depth level) fun ts e _ => DerivesExpr (.binary level) ts e
  chainRest : ∀ level left, Sound (Parse.chainRest depth level left) fun ts e _ =>
    ∀ l, DerivesExpr (.binary level) l left → DerivesExpr (.binary level) (l ++ ts) e
  operand : ∀ level, Sound (Parse.operand depth level) fun ts e _ =>
    DerivesExpr (.operand level) ts e
  unary : Sound (Parse.unary depth) fun ts e _ => DerivesExpr .unary ts e
  callRest : ∀ subject, Sound (Parse.callRest depth subject) fun ts e _ =>
    ∀ l, DerivesExpr .call l subject → DerivesExpr .call (l ++ ts) e
  arguments : ∀ limit count, Sound (Parse.arguments depth limit count) fun ts es _ =>
    DerivesExpr .arguments ts es ∧ ∀ n, limit = some n → count + es.length ≤ n
  primary : Sound (Parse.primary depth) fun ts e _ => DerivesExpr .primary ts e

section Steps

variable {depth : Nat}

theorem ExprSound.expression_succ (ih : ExprSound depth) :
    Sound (Parse.expression (depth + 1)) fun ts e _ => DerivesExpr .expression ts e := by
  rw [Parse.expression]
  refine ih.ternary.bind fun target => (sound_accept? _).bind fun equals => ?_
  cases equals with
  | some equals =>
      refine ih.expression.bind fun value => (sound_assignTo _ _ _).mono ?_
      rintro ts e rest ⟨rfl, h⟩ r hr l ⟨rfl, -, hk⟩ t ht
      have hk : equals.kind = .equal := by simpa using hk
      rcases h with ⟨id, name, id', rfl, rfl⟩ | ⟨object, name, rfl, rfl⟩
      · simpa using (ht.assign hk hr : DerivesExpr .expression _ (.assign id' name value))
      · simpa using ht.set hk hr
  | none =>
      refine (sound_accept? _).bind fun op => ?_
      cases op with
      | some op =>
          refine ih.expression.bind fun value => (sound_updateOf _ _ _).mono ?_
          rintro ts e rest ⟨rfl, id, name, id', rfl, rfl⟩ r hr l ⟨rfl, -, hk⟩ l₁ ⟨rfl, -⟩ t ht
          have hop := (isCompoundAssign_iff _).1 hk
          simpa using (ht.compound hop hr : DerivesExpr .expression _ (.update id' name op value))
      | none =>
          refine (sound_accept? _).bind fun op => ?_
          cases op with
          | some op =>
              refine (sound_updateOf _ _ _).mono ?_
              rintro ts e rest ⟨rfl, id, name, id', rfl, rfl⟩ l ⟨rfl, -, hk⟩ l₁ ⟨rfl, -⟩ l₂ ⟨rfl, -⟩ t ht
              have hop := (isStep_iff _).1 hk
              simpa using (ht.step hop : DerivesExpr .expression _ (.update id' name op _))
          | none =>
              apply Sound.pure
              rintro rest l ⟨rfl, -⟩ l₁ ⟨rfl, -⟩ l₂ ⟨rfl, -⟩ t ht
              simpa using ht.plain

theorem ExprSound.ternary_succ (ih : ExprSound depth) :
    Sound (Parse.ternary (depth + 1)) fun ts e _ => DerivesExpr .ternary ts e := by
  rw [Parse.ternary]
  refine (ih.chain _).bind fun test => (sound_accept? _).bind fun question => ?_
  cases question with
  | some question =>
      refine ih.expression.bind fun whenTrue => (sound_expect _ _).bind fun colon =>
        ih.expression.bind fun whenFalse => Sound.pure ?_
      rintro rest b hb l ⟨rfl, hc⟩ a ha l₁ ⟨rfl, -, hq⟩ t ht
      simpa using ht.conditional (by simpa using hq) ha hc hb
  | none =>
      apply Sound.pure
      rintro rest l ⟨rfl, -⟩ t ht
      simpa using ht.unconditional

theorem ExprSound.chain_succ (ih : ExprSound depth) (level : Level) :
    Sound (Parse.chain (depth + 1) level) fun ts e _ => DerivesExpr (.binary level) ts e := by
  rw [Parse.chain]
  refine (ih.operand level).bind fun left => (ih.chainRest level left).mono ?_
  intro ts e rest h l hl
  exact h l hl.single

theorem joinLevel {level : Level} {left right : List Token} {op : Token} {a b : Expr}
    (ha : DerivesExpr (.binary level) left a) (hop : op.kind ∈ operators level)
    (hb : DerivesExpr (.operand level) right b) :
    DerivesExpr (.binary level) (left ++ op :: right) (level.node op a b) := by
  cases level with
  | logical => exact ha.joinLogical hop hb
  | equality => exact .joinBinary (by simp) ha hop hb
  | comparison => exact .joinBinary (by simp) ha hop hb
  | term => exact .joinBinary (by simp) ha hop hb
  | factor => exact .joinBinary (by simp) ha hop hb

theorem ExprSound.chainRest_succ (ih : ExprSound depth) (level : Level) (left : Expr) :
    Sound (Parse.chainRest (depth + 1) level left) fun ts e _ =>
      ∀ l, DerivesExpr (.binary level) l left → DerivesExpr (.binary level) (l ++ ts) e := by
  rw [Parse.chainRest]
  refine (sound_accept? _).bind fun op => ?_
  cases op with
  | some op =>
      refine (ih.operand level).bind fun right => (ih.chainRest level _).mono ?_
      rintro ts e rest h r hr l₁ ⟨rfl, -, hop⟩ l hl
      simpa using h _ (joinLevel hl ((isOperator_iff _ _).1 hop) hr)
  | none =>
      apply Sound.pure
      rintro rest l₁ ⟨rfl, -⟩ l hl
      simpa using hl

theorem ExprSound.operand_succ (ih : ExprSound depth) (level : Level) :
    Sound (Parse.operand (depth + 1) level) fun ts e _ => DerivesExpr (.operand level) ts e := by
  rw [Parse.operand]
  cases level with
  | logical => exact (ih.chain .equality).mono fun _ _ _ h => h.logicalOperand
  | equality => exact (ih.chain .comparison).mono fun _ _ _ h => h.equalityOperand
  | comparison => exact (ih.chain .term).mono fun _ _ _ h => h.comparisonOperand
  | term => exact (ih.chain .factor).mono fun _ _ _ h => h.termOperand
  | factor => exact ih.unary.mono fun _ _ _ h => h.factorOperand

theorem ExprSound.unary_succ (ih : ExprSound depth) :
    Sound (Parse.unary (depth + 1)) fun ts e _ => DerivesExpr .unary ts e := by
  rw [Parse.unary]
  refine (sound_accept? _).bind fun op => ?_
  cases op with
  | some op =>
      refine ih.unary.bind fun operand => Sound.pure ?_
      rintro rest ts h l ⟨rfl, -, hop⟩
      simpa using h.unary ((isUnaryOperator_iff _).1 hop)
  | none =>
      refine ih.primary.bind fun subject => (ih.callRest subject).mono ?_
      rintro ts e rest h r hr l ⟨rfl, -⟩
      simpa using (h r hr.primaryCall).callUnary

theorem ExprSound.callRest_succ (ih : ExprSound depth) (subject : Expr) :
    Sound (Parse.callRest (depth + 1) subject) fun ts e _ =>
      ∀ l, DerivesExpr .call l subject → DerivesExpr .call (l ++ ts) e := by
  rw [Parse.callRest]
  refine sound_peek.bind fun t => ?_
  split
  · rename_i ht
    refine Sound.skip (by simp [ht]) ((sound_sees _).bind fun closed => ?_)
    split
    · refine (sound_value _).bind fun args => (sound_expect _ _).bind fun paren => (ih.callRest _).mono ?_
      rintro ts e rest h l₁ ⟨rfl, hr⟩ l₂ ⟨rfl, rfl⟩ l₃ ⟨rfl, -⟩ l hl
      simpa using h _ (hl.callNone ht hr)
    · refine (ih.arguments _ _).bind fun args => (sound_expect _ _).bind fun paren =>
        (ih.callRest _).mono ?_
      rintro ts e rest h l₁ ⟨rfl, hr⟩ a ⟨ha, hn⟩ l₃ ⟨rfl, -⟩ l hl
      have hlen : args.length ≤ 255 := by simpa [maxArity] using hn
      simpa using h _ (hl.call ht ha hlen hr)
  · rename_i ht
    refine Sound.skip (by simp [ht]) ?_
    refine (sound_expect _ _).bind fun name => (ih.callRest _).mono ?_
    rintro ts e rest h l₁ ⟨rfl, hn⟩ l hl
    simpa using h _ (hl.get ht hn)
  · rename_i ht
    refine Sound.skip (by simp [ht]) ?_
    refine ih.expression.bind fun position => (sound_expect _ _).bind fun bracket =>
      (ih.callRest _).mono ?_
    rintro ts e rest h l₁ ⟨rfl, hr⟩ p hp l hl
    simpa using h _ (hl.index ht hp hr)
  · refine Sound.stay (Sound.pure ?_)
    intro rest l hl
    simpa using hl

theorem ExprSound.arguments_succ (ih : ExprSound depth) (limit : Option Nat) (count : Nat) :
    Sound (Parse.arguments (depth + 1) limit count) fun ts es _ =>
      DerivesExpr .arguments ts es ∧ ∀ n, limit = some n → count + es.length ≤ n := by
  rw [Parse.arguments]
  refine sound_unlessReported (D := fun ts es _ => DerivesExpr .arguments ts es ∧
    ∀ n, limit = some n → count < n → count + es.length ≤ n) ?_ ?_
  · refine ih.expression.bind fun first => (sound_accept? _).bind fun comma => ?_
    cases comma with
    | some comma =>
        refine (ih.arguments limit (count + 1)).bind fun others => Sound.pure ?_
        rintro rest r ⟨hr, hn⟩ l ⟨rfl, -, hc⟩ ts hts
        refine ⟨by simpa using hts.more (by simpa using hc) hr, fun n h _ => ?_⟩
        have := hn n h
        rw [List.length_cons]; omega
    | none =>
        apply Sound.pure
        rintro rest l ⟨rfl, -⟩ ts hts
        refine ⟨by simpa using hts.one, fun n _ hlt => ?_⟩
        rw [List.length_singleton]; omega
  · rintro hfew ts es rest ⟨h, hn⟩
    refine ⟨h, fun n hlim => hn n hlim ?_⟩
    subst hlim
    simpa using hfew

theorem ExprSound.primary_succ (ih : ExprSound depth) :
    Sound (Parse.primary (depth + 1)) fun ts e _ => DerivesExpr .primary ts e := by
  rw [Parse.primary]
  refine sound_peek.bind fun t => ?_
  split
  · rename_i ht
    refine Sound.skip (by simp [ht]) (sound_freshId.bind fun id => Sound.pure ?_)
    rintro rest l rfl
    exact .this ht
  · rename_i ht
    exact Sound.skip (by simp [ht]) (Sound.pure fun _ => .falseLit ht)
  · rename_i ht
    exact Sound.skip (by simp [ht]) (Sound.pure fun _ => .trueLit ht)
  · rename_i ht
    exact Sound.skip (by simp [ht]) (Sound.pure fun _ => .nullLit ht)
  · rename_i ht
    exact Sound.skip (by simp [ht]) (Sound.pure fun _ => .number ht)
  · rename_i ht
    exact Sound.skip (by simp [ht]) (Sound.pure fun _ => .string ht)
  · rename_i ht
    refine Sound.skip (by simp [ht]) (sound_freshId.bind fun id => Sound.pure ?_)
    rintro rest l rfl
    exact .name ht
  · rename_i ht
    refine Sound.skip (by simp [ht]) (ih.expression.bind fun inner =>
      (sound_expect _ _).bind fun paren => Sound.pure ?_)
    rintro rest l₁ ⟨rfl, hr⟩ ts h
    simpa using DerivesExpr.group ht h hr
  · rename_i ht
    refine Sound.skip (by simp [ht]) ((sound_sees _).bind fun closed => ?_)
    split
    · refine (sound_value _).bind fun items => (sound_expect _ _).bind fun bracket => Sound.pure ?_
      rintro rest l₁ ⟨rfl, hr⟩ l₂ ⟨rfl, rfl⟩ l₃ ⟨rfl, -⟩
      simpa using DerivesExpr.arrayNone ht hr
    · refine (ih.arguments _ _).bind fun items => (sound_expect _ _).bind fun bracket => Sound.pure ?_
      rintro rest l₁ ⟨rfl, hr⟩ ts ⟨h, -⟩ l₃ ⟨rfl, -⟩
      simpa using DerivesExpr.array ht h hr
  · exact sound_fail.stay

end Steps

theorem exprSound : ∀ depth, ExprSound depth
  | 0 => by
    constructor <;> intros <;> exact sound_exhausted
  | depth + 1 =>
    let ih := exprSound depth
    ⟨ih.expression_succ, ih.ternary_succ, ih.chain_succ, ih.chainRest_succ, ih.operand_succ,
      ih.unary_succ, ih.callRest_succ, ih.arguments_succ, ih.primary_succ⟩

/-- **The expression parser only returns what the grammar derives.** -/
theorem expression_sound (depth : Nat) :
    Sound (expression depth) fun ts e _ => DerivesExpr .expression ts e :=
  (exprSound depth).expression

/-! ## Statements -/

theorem variableDecl_sound (depth : Nat) :
    Sound (variableDecl depth) fun ts s _ => Variable ts s := by
  unfold variableDecl
  refine (sound_expect _ _).bind fun name => (sound_accept? _).bind fun equals => ?_
  cases equals with
  | some equals =>
      refine ((expression_sound depth).map (D := fun ts o _ => ∃ e, o = some e ∧
        DerivesExpr .expression ts e) fun _ e _ h => ⟨e, rfl, h⟩).bind fun init =>
        (sound_expect _ _).bind fun semi => Sound.pure ?_
      rintro rest l ⟨rfl, hs⟩ ts ⟨e, rfl, h⟩ l₁ ⟨rfl, -, heq⟩ l₂ ⟨rfl, hname⟩
      simpa using Variable.init hname (by simpa using heq) h hs
  | none =>
      refine (sound_value _).bind fun init => (sound_expect _ _).bind fun semi => Sound.pure ?_
      rintro rest l ⟨rfl, hs⟩ ts ⟨rfl, rfl⟩ l₁ ⟨rfl, -⟩ l₂ ⟨rfl, hname⟩
      simpa using Variable.bare hname hs

theorem expressionStmt_sound (depth : Nat) :
    Sound (expressionStmt depth) fun ts s _ => ∃ e l semi, s = .expr e ∧ ts = l ++ [semi] ∧
      DerivesExpr .expression l e ∧ semi.kind = .semicolon := by
  unfold expressionStmt
  refine (expression_sound depth).bind fun e => (sound_expect _ _).bind fun semi => Sound.pure ?_
  rintro rest l ⟨rfl, hs⟩ ts h
  exact ⟨e, ts, semi, rfl, by simp, h, hs⟩

theorem expressionUnless_sound (depth : Nat) (kind : TokenKind) :
    Sound (expressionUnless depth kind) fun ts o _ => Clause ts o := by
  unfold expressionUnless
  refine (sound_sees _).bind fun b => ?_
  split
  · apply Sound.pure
    rintro rest l ⟨rfl, -⟩
    exact .none
  · refine (expression_sound depth).map ?_
    rintro ts e rest h l ⟨rfl, -⟩
    exact .some h

theorem forInit_sound (depth : Nat) : Sound (forInit depth) fun ts o _ => ForInit ts o := by
  unfold forInit
  refine sound_peek.bind fun t => ?_
  split
  · rename_i ht
    exact Sound.skip (by simp [ht]) (Sound.pure fun _ => .none ht)
  · rename_i ht
    exact Sound.skip (by simp [ht]) ((variableDecl_sound depth).map fun _ _ _ h => .var ht h)
  · refine Sound.stay ((expressionStmt_sound depth).map ?_)
    rintro ts s rest ⟨e, l, semi, rfl, rfl, h, hs⟩
    exact .expr h hs

theorem parameters_sound : ∀ depth count, Sound (parameters depth count) fun ts names _ =>
    Names ts names ∧ count + names.length ≤ 255
  | 0, _ => sound_exhausted
  | depth + 1, count => by
    rw [parameters]
    refine sound_unlessReported (D := fun ts names _ => Names ts names ∧
      (count < 255 → count + names.length ≤ 255)) ?_ ?_
    · refine (sound_expect _ _).bind fun name => (sound_accept? _).bind fun comma => ?_
      cases comma with
      | some comma =>
          refine (parameters_sound depth (count + 1)).bind fun others => Sound.pure ?_
          rintro rest r ⟨hr, hn⟩ l ⟨rfl, -, hc⟩ l₁ ⟨rfl, hname⟩
          refine ⟨by simpa using Names.more hname (by simpa using hc) hr, fun _ => ?_⟩
          rw [List.length_cons]; omega
      | none =>
          apply Sound.pure
          rintro rest l ⟨rfl, -⟩ l₁ ⟨rfl, hname⟩
          refine ⟨by simpa using Names.one hname, fun hlt => ?_⟩
          rw [List.length_singleton]; omega
    · rintro hfew ts names rest ⟨h, hn⟩
      exact ⟨h, hn (by simpa [maxArity] using hfew)⟩

/-- A statement was read, and no `else` follows that could belong to it. -/
def StatementRead (ts : List Token) (s : Stmt) (rest : List Token) : Prop :=
  ∃ dangling, DerivesStmt true (.statement dangling) ts s ∧
    (dangling = true → (first rest).kind ≠ .kwElse)

theorem StatementRead.closed {ts : List Token} {s : Stmt} {rest : List Token}
    (h : DerivesStmt true (.statement false) ts s) : StatementRead ts s rest :=
  ⟨false, h, by simp⟩

/-- The statement parsers of a depth are sound. -/
structure StmtSound (depth : Nat) : Prop where
  declaration : Sound (Parse.declaration depth) fun ts o _ => ∃ s dangling, o = some s ∧
    DerivesStmt true (.declaration dangling) ts s
  declarationOrHalt : Sound (Parse.declarationOrHalt depth) fun ts s _ => ∃ dangling,
    DerivesStmt true (.declaration dangling) ts s
  statement : Sound (Parse.statement depth) StatementRead
  classDecl : Sound (Parse.classDecl depth) fun ts s _ => ∀ keyword, keyword.kind = .kwClass →
    DerivesStmt true (.statement false) (keyword :: ts) s
  methodList : Sound (Parse.methodList depth) fun ts ds _ => DerivesStmt true .callables ts ds
  callable : ∀ kind, Sound (Parse.callable depth kind) fun ts d _ => DerivesStmt true .callable ts d
  ifStmt : Sound (Parse.ifStmt depth) fun ts s rest => ∀ keyword, keyword.kind = .kwIf →
    StatementRead (keyword :: ts) s rest
  forStmt : Sound (Parse.forStmt depth) fun ts s rest => ∀ keyword, keyword.kind = .kwFor →
    StatementRead (keyword :: ts) s rest
  whileStmt : Sound (Parse.whileStmt depth) fun ts s rest => ∀ keyword, keyword.kind = .kwWhile →
    StatementRead (keyword :: ts) s rest
  block : Sound (Parse.block depth) fun ts body _ => ∃ l r, ts = l ++ [r] ∧
    DerivesStmt true .declarations l body ∧ r.kind = .rightBrace

section StmtSteps

variable {depth : Nat}

theorem StmtSound.declaration_succ (ih : StmtSound depth) :
    Sound (Parse.declaration (depth + 1)) fun ts o _ => ∃ s dangling, o = some s ∧
      DerivesStmt true (.declaration dangling) ts s := by
  intro st o st' h he
  rw [Parse.declaration] at h
  simp only at h
  split at h
  · rename_i s st₁ h₁
    cases h
    obtain ⟨e₀, ts, hts, nts, dangling, hd⟩ := ih.declarationOrHalt h₁ he
    exact ⟨e₀, ts, hts, nts, s, dangling, rfl, hd⟩
  · -- a dropped declaration leaves its error on record
    cases h
    simp [ParseState.recover, ParseState.record] at he
  · cases h

theorem StmtSound.declarationOrHalt_succ (ih : StmtSound depth) :
    Sound (Parse.declarationOrHalt (depth + 1)) fun ts s _ => ∃ dangling,
      DerivesStmt true (.declaration dangling) ts s := by
  rw [Parse.declarationOrHalt]
  refine sound_peek.bind fun t => ?_
  split
  · rename_i ht
    exact Sound.skip (by simp [ht]) ((variableDecl_sound depth).mono fun _ _ _ h =>
      ⟨false, .variable ht h⟩)
  · refine Sound.stay (ih.statement.mono ?_)
    rintro ts s rest ⟨dangling, h, -⟩
    exact ⟨dangling, h.statement⟩

theorem StmtSound.statement_succ (ih : StmtSound depth) :
    Sound (Parse.statement (depth + 1)) StatementRead := by
  rw [Parse.statement]
  refine sound_peek.bind fun t => ?_
  split
  · rename_i ht
    exact Sound.skip (by simp [ht]) (ih.classDecl.mono fun _ _ _ h => .closed (h t ht))
  · rename_i ht
    refine Sound.skip (by simp [ht]) ?_
    unfold returnStmt
    refine (expressionUnless_sound _ _).bind fun value => (sound_expect _ _).bind fun semi =>
      Sound.pure ?_
    rintro rest l ⟨rfl, hs⟩ ts h
    exact .closed (by simpa using DerivesStmt.ret ht h hs)
  · rename_i ht
    exact Sound.skip (by simp [ht]) ((ih.callable _).map fun _ _ _ h => .closed (h.function ht))
  · rename_i ht
    exact Sound.skip (by simp [ht]) (ih.ifStmt.mono fun _ _ _ h => h t ht)
  · rename_i ht
    exact Sound.skip (by simp [ht]) (ih.forStmt.mono fun _ _ _ h => h t ht)
  · rename_i ht
    exact Sound.skip (by simp [ht]) (ih.whileStmt.mono fun _ _ _ h => h t ht)
  · rename_i ht
    refine Sound.skip (by simp [ht]) ?_
    unfold printStmt
    refine (expression_sound _).bind fun e => (sound_expect _ _).bind fun semi => Sound.pure ?_
    rintro rest l ⟨rfl, hs⟩ ts h
    exact .closed (by simpa using DerivesStmt.print ht h hs)
  · rename_i ht
    refine Sound.skip (by simp [ht]) (ih.block.map ?_)
    rintro ts body rest ⟨l, r, rfl, h, hr⟩
    exact .closed (by simpa using DerivesStmt.block ht h hr)
  · refine Sound.stay ((expressionStmt_sound _).mono ?_)
    rintro ts s rest ⟨e, l, semi, rfl, rfl, h, hs⟩
    exact .closed (.expr h hs)

theorem StmtSound.classDecl_succ (ih : StmtSound depth) :
    Sound (Parse.classDecl (depth + 1)) fun ts s _ => ∀ keyword, keyword.kind = .kwClass →
      DerivesStmt true (.statement false) (keyword :: ts) s := by
  rw [Parse.classDecl]
  refine (sound_expect _ _).bind fun name => (sound_expect _ _).bind fun l =>
    ih.methodList.bind fun methods => (sound_expect _ _).bind fun r => Sound.pure ?_
  rintro rest l₁ ⟨rfl, hr⟩ ts h l₂ ⟨rfl, hl⟩ l₃ ⟨rfl, hname⟩ keyword hk
  simpa using DerivesStmt.classDecl hk hname hl h hr

theorem sound_atBraceOrEnd : Sound atBraceOrEnd fun ts _ _ => ts = [] := by
  intro st b st' h he
  cases h
  exact ⟨he, [], rfl, by simp, rfl⟩

theorem StmtSound.methodList_succ (ih : StmtSound depth) :
    Sound (Parse.methodList (depth + 1)) fun ts ds _ => DerivesStmt true .callables ts ds := by
  rw [Parse.methodList]
  refine sound_atBraceOrEnd.bind fun done => ?_
  split
  · apply Sound.pure
    rintro rest l rfl
    exact .noCallable
  · refine (ih.callable _).bind fun first => ih.methodList.bind fun others => Sound.pure ?_
    rintro rest r hr l hl l₁ rfl
    simpa using hl.callables hr

theorem StmtSound.callable_succ (ih : StmtSound depth) (kind : DeclKind) :
    Sound (Parse.callable (depth + 1) kind) fun ts d _ => DerivesStmt true .callable ts d := by
  rw [Parse.callable]
  refine (sound_expect _ _).bind fun name => (sound_expect _ _).bind fun l =>
    (sound_sees _).bind fun closed => ?_
  split
  · refine (sound_value _).bind fun params => (sound_expect _ _).bind fun r =>
      (sound_expect _ _).bind fun l' => ih.block.bind fun body => Sound.pure ?_
    rintro rest ts ⟨b, r', rfl, h, hr'⟩ l₁ ⟨rfl, hl'⟩ l₂ ⟨rfl, hr⟩ l₃ ⟨rfl, rfl⟩ l₄ ⟨rfl, -⟩ l₅
      ⟨rfl, hl⟩ l₆ ⟨rfl, hname⟩
    simpa using DerivesStmt.callable hname hl .none hr hl' h hr'
  · refine (parameters_sound _ _).bind fun params => (sound_expect _ _).bind fun r =>
      (sound_expect _ _).bind fun l' => ih.block.bind fun body => Sound.pure ?_
    rintro rest ts ⟨b, r', rfl, h, hr'⟩ l₁ ⟨rfl, hl'⟩ l₂ ⟨rfl, hr⟩ l₃ ⟨hp, hn⟩ l₄ ⟨rfl, -⟩ l₅
      ⟨rfl, hl⟩ l₆ ⟨rfl, hname⟩
    simpa using DerivesStmt.callable hname hl (.some hp (by omega)) hr hl' h hr'

theorem StmtSound.ifStmt_succ (ih : StmtSound depth) :
    Sound (Parse.ifStmt (depth + 1)) fun ts s rest => ∀ keyword, keyword.kind = .kwIf →
      StatementRead (keyword :: ts) s rest := by
  rw [Parse.ifStmt]
  refine (sound_expect _ _).bind fun l => (expression_sound _).bind fun test =>
    (sound_expect _ _).bind fun r => ih.statement.bind fun whenTrue =>
    (sound_accept? _).bind fun orElse => ?_
  cases orElse with
  | some orElse =>
      refine ih.statement.bind fun whenFalse => Sound.pure ?_
      rintro rest ts' ⟨dangling', h', hd'⟩ l₁ ⟨rfl, -, helse⟩ ts ⟨dangling, h, hd⟩ l₂ ⟨rfl, hr⟩ t ht
        l₃ ⟨rfl, hl⟩ keyword hk
      have helse : orElse.kind = .kwElse := by simpa using helse
      -- the branch before the `else` would have taken it
      have hd : dangling = false := by simpa [helse] using hd
      exact ⟨dangling', by simpa using DerivesStmt.ifElse hk hl ht hr h (fun _ => hd) helse h', hd'⟩
  | none =>
      apply Sound.pure
      rintro rest l₁ ⟨rfl, hno⟩ ts ⟨dangling, h, -⟩ l₂ ⟨rfl, hr⟩ t ht l₃ ⟨rfl, hl⟩ keyword hk
      refine ⟨true, by simpa using DerivesStmt.ifThen hk hl ht hr h, fun _ => ?_⟩
      rcases hno with hno | hno
      · simp only [List.nil_append] at hno
        simp [hno]
      · simpa using hno

theorem StmtSound.forStmt_succ (ih : StmtSound depth) :
    Sound (Parse.forStmt (depth + 1)) fun ts s rest => ∀ keyword, keyword.kind = .kwFor →
      StatementRead (keyword :: ts) s rest := by
  rw [Parse.forStmt]
  refine (sound_expect _ _).bind fun l => (forInit_sound _).bind fun init =>
    (expressionUnless_sound _ _).bind fun test => (sound_expect _ _).bind fun semi =>
    (expressionUnless_sound _ _).bind fun step => (sound_expect _ _).bind fun r =>
    ih.statement.bind fun body => Sound.pure ?_
  rintro rest ts ⟨dangling, h, hd⟩ l₁ ⟨rfl, hr⟩ e he l₂ ⟨rfl, hs⟩ c hc i hi l₃ ⟨rfl, hl⟩ keyword hk
  exact ⟨dangling, by simpa using DerivesStmt.forLoop hk hl hi hc hs he hr h, by simpa using hd⟩

theorem StmtSound.whileStmt_succ (ih : StmtSound depth) :
    Sound (Parse.whileStmt (depth + 1)) fun ts s rest => ∀ keyword, keyword.kind = .kwWhile →
      StatementRead (keyword :: ts) s rest := by
  rw [Parse.whileStmt]
  refine (sound_expect _ _).bind fun l => (expression_sound _).bind fun test =>
    (sound_expect _ _).bind fun r => ih.statement.bind fun body => Sound.pure ?_
  rintro rest ts ⟨dangling, h, hd⟩ l₁ ⟨rfl, hr⟩ c hc l₃ ⟨rfl, hl⟩ keyword hk
  exact ⟨dangling, by simpa using DerivesStmt.whileLoop hk hl hc hr h, by simpa using hd⟩

theorem StmtSound.block_succ (ih : StmtSound depth) :
    Sound (Parse.block (depth + 1)) fun ts body _ => ∃ l r, ts = l ++ [r] ∧
      DerivesStmt true .declarations l body ∧ r.kind = .rightBrace := by
  rw [Parse.block]
  refine sound_atBraceOrEnd.bind fun done => ?_
  split
  · refine (sound_expect _ _).bind fun r => Sound.pure ?_
    rintro rest l ⟨rfl, hr⟩ l₁ rfl
    exact ⟨[], r, rfl, .noDeclaration, hr⟩
  · refine ih.declaration.bind fun first => ih.block.bind fun others => Sound.pure ?_
    rintro rest ts ⟨l, r, rfl, h, hr⟩ ts' ⟨s, dangling, rfl, h'⟩ l₁ rfl
    exact ⟨ts' ++ l, r, by simp, h'.declarations h, hr⟩

end StmtSteps

theorem stmtSound : ∀ depth, StmtSound depth
  | 0 => by
    constructor <;> intros <;> exact sound_exhausted
  | depth + 1 =>
    let ih := stmtSound depth
    ⟨ih.declaration_succ, ih.declarationOrHalt_succ, ih.statement_succ, ih.classDecl_succ,
      ih.methodList_succ, ih.callable_succ, ih.ifStmt_succ, ih.forStmt_succ, ih.whileStmt_succ,
      ih.block_succ⟩

theorem sound_atEnd : Sound atEnd fun ts b rest =>
    ts = [] ∧ (b = true → (first rest).kind = .eof) := by
  intro st b st' h he
  cases h
  refine ⟨he, [], rfl, by simp, rfl, fun hb => ?_⟩
  rw [first_rest]
  simpa [ParseState.atEnd] using hb

theorem declarations_sound : ∀ depth, Sound (declarations depth) fun ts p rest =>
    Program true ts p ∧ (first rest).kind = .eof
  | 0 => sound_exhausted
  | depth + 1 => by
    rw [declarations]
    refine sound_atEnd.bind fun done => ?_
    split
    · rename_i hdone
      apply Sound.pure
      rintro rest l ⟨rfl, heof⟩
      exact ⟨.noDeclaration, heof hdone⟩
    · refine (stmtSound depth).declaration.bind fun first =>
        (declarations_sound depth).bind fun others => Sound.pure ?_
      rintro rest ts ⟨h, heof⟩ ts' ⟨s, dangling, rfl, h'⟩ l₁ ⟨rfl, -⟩
      rw [Program] at h
      exact ⟨by simpa [Program] using h'.declarations h, heof⟩

/-- What comes before the end token is told by the end token. -/
theorem eq_of_append_end {ts l rest : List Token} {eof : Token} (hts : ∀ t ∈ ts, t.kind ≠ .eof)
    (heof : eof.kind = .eof) (hl : ∀ t ∈ l, t.kind ≠ .eof) (h : ts ++ [eof] = l ++ rest)
    (hrest : (first rest).kind = .eof) : ts = l := by
  rcases List.append_eq_append_iff.mp h with ⟨as, rfl, has⟩ | ⟨bs, rfl, rfl⟩
  · cases as with
    | nil => simp
    | cons a as =>
        simp only [List.cons_append, List.cons.injEq] at has
        exact absurd (has.1 ▸ heof) (hl a (by simp))
  · cases bs with
    | nil => simp
    | cons b bs => exact absurd hrest (hts b (by simp))

/-- **A program the parser returns is derived, with each `else` at its nearest `if`, from the tokens
in front of the end token.** -/
theorem program_sound {firstId : NodeId} {ts : List Token} {eof : Token} {p : Scriptlet.Program}
    (hts : ∀ t ∈ ts, t.kind ≠ .eof) (heof : eof.kind = .eof)
    (h : (parse firstId (ts ++ [eof])).program = .ok p) : Program true ts p := by
  unfold parse at h
  split at h
  · rename_i p' st hrun
    simp only at h
    split at h
    · rename_i hnone
      cases h
      obtain ⟨-, l, hl, nl, hp, hend⟩ := declarations_sound _ hrun (by simpa using hnone)
      rwa [eq_of_append_end hts heof nl hl hend]
    · cases h
  · cases h

end Scriptlet.Grammar
