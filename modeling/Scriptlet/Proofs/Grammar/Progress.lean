import Scriptlet.Tree.Parse
import Scriptlet.Proofs.Token.Names

/-!
# Progress of the parser

On a list of tokens that ends with its only end token, every function of the parser reads forward, records errors at
tokens of the list only, and never uses up its depth.

* `Ended` — a list of tokens that ends with its only end token.
* `Passes` — what reading may do to a state; `Takes` — an action that does so and takes a number of tokens.
* `Room rank depth` — a depth that is enough for the tokens left: sixteen for each of them, and a rank for the function,
  since a function of a lower rank may be entered before a token is consumed.

Principal results: `Parse.declarations_ok` — the declarations of a program are read to the end token;
`parse_error` — a failed parse has an error, and all of its errors are at tokens.
-/

set_option autoImplicit false

namespace Scriptlet

/-! ## Lists with an end token -/

/-- A list of tokens that ends with its only end token. -/
inductive Ended : List Token → Prop
  | last {t : Token} : t.kind = .eof → Ended [t]
  | next {t : Token} {ts : List Token} : t.kind ≠ .eof → Ended ts → Ended (t :: ts)

theorem Ended.prepend {ts more : List Token} (h : Ended more) (hts : ∀ t ∈ ts, t.kind ≠ .eof) : Ended (ts ++ more) := by
  induction ts with
  | nil => exact h
  | cons t ts ih =>
      obtain ⟨ht, hts⟩ := List.forall_mem_cons.mp hts
      exact .next ht (ih hts)

theorem ended_append {ts : List Token} {last : Token} (hts : ∀ t ∈ ts, t.kind ≠ .eof) (hlast : last.kind = .eof) :
    Ended (ts ++ [last]) :=
  (Ended.last hlast).prepend hts

theorem ended_tokens (source : String) : Ended (tokens source) := by
  obtain ⟨ts, line, htokens, hplain⟩ := tokens_spec source
  rw [htokens]
  exact ended_append (fun t ht => (hplain t ht).notEnd) rfl

theorem Ended.length_pos {ts : List Token} (h : Ended ts) : 0 < ts.length := by
  cases h <;> simp

/-- Reading resumes at a later token, at the end token at the latest. -/
theorem Ended.resumeAfter {ts : List Token} (h : Ended ts) (previous : Token) :
    resumeAfter previous ts <:+ ts ∧ Ended (resumeAfter previous ts) := by
  induction h generalizing previous with
  | @last t ht =>
      rw [Scriptlet.resumeAfter, if_pos (.inl ht)]
      exact ⟨List.suffix_rfl, .last ht⟩
  | @next t ts ht hts ih =>
      rw [Scriptlet.resumeAfter]
      split
      · exact ⟨List.suffix_rfl, .next ht hts⟩
      · obtain ⟨hsuffix, hended⟩ := ih t
        exact ⟨hsuffix.trans (List.suffix_cons t ts), hended⟩

theorem Ended.synchronize {ts : List Token} (h : Ended ts) :
    synchronize ts <:+ ts ∧ Ended (synchronize ts) ∧
      ∀ t ∈ ts.head?, t.kind ≠ .eof → (synchronize ts).length < ts.length := by
  cases h with
  | @last t ht =>
      rw [Scriptlet.synchronize, if_pos ht]
      refine ⟨List.suffix_rfl, .last ht, ?_⟩
      rintro _ ⟨⟩ hne
      exact absurd ht hne
  | @next t ts ht hts =>
      obtain ⟨hsuffix, hended⟩ := hts.resumeAfter t
      rw [Scriptlet.synchronize, if_neg ht]
      refine ⟨hsuffix.trans (List.suffix_cons t ts), hended, fun _ _ _ => ?_⟩
      exact Nat.lt_succ_of_le hsuffix.length_le

/-- An error at a token of a list. -/
def ParseError.PointsInto (e : ParseError) (ts : List Token) : Prop := ∃ t ∈ ts, ∃ mistake, e = .at t mistake

/-- A state in which the tokens not yet consumed are the end of a list. -/
structure ParseState.Stands (st : ParseState) (ts : List Token) : Prop where
  ended : Ended st.rest
  suffix : st.rest <:+ ts

/-- What reading does to a state: some tokens are gone, and errors at tokens of the list have been added. -/
structure ParseState.Passes (ts : List Token) (st st' : ParseState) : Prop where
  suffix : st'.rest <:+ st.rest
  ended : Ended st'.rest
  errors : ∃ new, st'.errors = st.errors ++ new ∧ ∀ e ∈ new, e.PointsInto ts

namespace ParseState

variable {ts : List Token} {st st' st'' : ParseState}

/-- The next token stands in front of a list that ends as well, unless it is the end token. -/
theorem exists_rest (h : Ended st.rest) : ∃ rest, st.rest = st.peek :: rest ∧ (st.atEnd = false → Ended rest) := by
  obtain ⟨rest, nextId, errors⟩ := st
  cases h with
  | @last t ht => exact ⟨[], rfl, fun hend => by simp [atEnd, peek, ht] at hend⟩
  | @next t rest ht hrest => exact ⟨rest, rfl, fun _ => hrest⟩

theorem Stands.peek_mem (h : st.Stands ts) : st.peek ∈ ts := by
  obtain ⟨rest, hrest, -⟩ := exists_rest h.ended
  refine h.suffix.subset ?_
  rw [hrest]
  exact List.mem_cons_self

theorem Passes.refl (h : st.Stands ts) : Passes ts st st :=
  ⟨List.suffix_rfl, h.ended, [], by simp, by simp⟩

theorem Passes.trans (h : Passes ts st st') (h' : Passes ts st' st'') : Passes ts st st'' := by
  obtain ⟨new, hnew, hpoints⟩ := h.errors
  obtain ⟨new', hnew', hpoints'⟩ := h'.errors
  refine ⟨h'.suffix.trans h.suffix, h'.ended, new ++ new', ?_, ?_⟩
  · rw [hnew', hnew, List.append_assoc]
  · intro e he
    rcases List.mem_append.mp he with he | he
    · exact hpoints e he
    · exact hpoints' e he

theorem Passes.stands (h : Passes ts st st') (hst : st.Stands ts) : st'.Stands ts :=
  ⟨h.ended, h.suffix.trans hst.suffix⟩

theorem Passes.length_le (h : Passes ts st st') : st'.rest.length ≤ st.rest.length :=
  h.suffix.length_le

theorem passes_record {t : Token} (h : st.Stands ts) (ht : t ∈ ts) (mistake : Mistake) :
    Passes ts st (st.record (.at t mistake)) := by
  refine ⟨List.suffix_rfl, h.ended, [.at t mistake], rfl, ?_⟩
  intro e he
  cases List.mem_singleton.mp he
  exact ⟨t, ht, mistake, rfl⟩

/-- A token that is no end token is consumed. -/
theorem passes_advance (h : st.Stands ts) (hend : st.atEnd = false) :
    Passes ts st st.advance ∧ st.advance.rest.length < st.rest.length := by
  obtain ⟨rest, hrest, hended⟩ := exists_rest h.ended
  have hadvance : st.advance = { st with rest := rest } := by
    rw [advance, hend, hrest]
    rfl
  rw [hadvance]
  refine ⟨⟨?_, hended hend, [], by simp, by simp⟩, ?_⟩
  · rw [hrest]
    exact List.suffix_cons _ rest
  · rw [hrest]
    exact Nat.lt_succ_self _

end ParseState

namespace Parse

open ParseState

/-! ## Actions -/

/-- An action that passes and takes at least `count` tokens, or halts at a mistake. -/
def Takes {α : Type} (ts : List Token) (count : Nat) (x : Parse α) (st : ParseState) : Prop :=
  match x st with
  | .ok _ st' => Passes ts st st' ∧ st'.rest.length + count ≤ st.rest.length
  | .error (.mistake e) st' => Passes ts st st' ∧ e.PointsInto ts
  | .error .exhausted _ => False

section Actions

variable {α β : Type} {ts : List Token} {st : ParseState} {count : Nat} {x : Parse α} {f : α → Parse β}

theorem Takes.bind_add {count' : Nat} (hx : Takes ts count x st)
    (hf : ∀ a st', Passes ts st st' → st'.rest.length + count ≤ st.rest.length → Takes ts count' (f a) st') :
    Takes ts (count + count') (x >>= f) st := by
  simp only [Takes, Bind.bind, EStateM.bind] at hx ⊢
  cases hr : x st with
  | ok a st₁ =>
      rw [hr] at hx
      have hrest := hf a st₁ hx.1 hx.2
      unfold Takes at hrest
      simp only
      split <;> rename_i hr' <;> rw [hr'] at hrest
      · exact ⟨hx.1.trans hrest.1, by omega⟩
      · exact ⟨hx.1.trans hrest.1, hrest.2⟩
      · exact hrest
  | error halt st₁ =>
      rw [hr] at hx
      cases halt with
      | mistake e => exact hx
      | exhausted => exact hx

/-- An action that takes tokens, and then any action. -/
theorem Takes.bind (hx : Takes ts count x st)
    (hf : ∀ a st', Passes ts st st' → st'.rest.length + count ≤ st.rest.length → Takes ts 0 (f a) st') :
    Takes ts count (x >>= f) st :=
  hx.bind_add hf

/-- Any action, and then one that takes tokens. -/
theorem Takes.andThen (hx : Takes ts 0 x st) (hf : ∀ a st', Passes ts st st' → Takes ts count (f a) st') :
    Takes ts count (x >>= f) st := by
  have h := hx.bind_add fun a st' hpass _ => hf a st' hpass
  rwa [Nat.zero_add] at h

theorem Takes.any (hx : Takes ts count x st) : Takes ts 0 x st := by
  unfold Takes at hx ⊢
  split <;> rename_i hr <;> rw [hr] at hx
  · exact ⟨hx.1, hx.1.length_le⟩
  · exact hx
  · exact hx

theorem Takes.map {g : α → β} (hx : Takes ts count x st) : Takes ts count (g <$> x) st := by
  simp only [Takes, Functor.map, EStateM.map] at hx ⊢
  cases hr : x st with
  | ok a st₁ =>
      rw [hr] at hx
      exact hx
  | error halt st₁ =>
      rw [hr] at hx
      cases halt with
      | mistake e => exact hx
      | exhausted => exact hx

theorem takes_pure (h : st.Stands ts) (a : α) : Takes ts 0 (pure a) st :=
  ⟨.refl h, Nat.le_refl _⟩

theorem takes_fail (h : st.Stands ts) (mistake : Mistake) : Takes ts count (fail mistake : Parse α) st :=
  ⟨.refl h, st.peek, h.peek_mem, mistake, rfl⟩

theorem takes_report {t : Token} (h : st.Stands ts) (ht : t ∈ ts) (mistake : Mistake) :
    Takes ts 0 (report t mistake) st :=
  ⟨passes_record h ht mistake, Nat.le_refl _⟩

theorem takes_freshId (h : st.Stands ts) : Takes ts 0 freshId st :=
  ⟨⟨List.suffix_rfl, h.ended, [], by simp, by simp⟩, Nat.le_refl _⟩

theorem Takes.peek {f : Token → Parse β} (hf : Takes ts count (f st.peek) st) : Takes ts count (peek >>= f) st := hf

theorem Takes.sees {f : Bool → Parse β} {test : TokenKind → Bool} (hf : ∀ found, Takes ts count (f found) st) :
    Takes ts count (sees test >>= f) st := hf _

theorem Takes.atBraceOrEnd {f : Bool → Parse β}
    (hf : ∀ done, (done = false → st.atEnd = false) → Takes ts count (f done) st) :
    Takes ts count (atBraceOrEnd >>= f) st :=
  hf _ fun hdone => (Bool.or_eq_false_iff.mp hdone).1

/-- An action that goes on as another one at a later state. -/
theorem Takes.of_later {st' : ParseState} {y : Parse α} (hy : Takes ts 0 y st') (hrun : x st = y st')
    (hpass : Passes ts st st') (hlength : st'.rest.length + count ≤ st.rest.length) : Takes ts count x st := by
  unfold Takes at hy ⊢
  rw [hrun]
  split <;> rename_i hr <;> rw [hr] at hy
  · exact ⟨hpass.trans hy.1, by omega⟩
  · exact ⟨hpass.trans hy.1, hy.2⟩
  · exact hy

/-- A token that is no end token, and then any action. -/
theorem Takes.skip {f : Unit → Parse β} (h : st.Stands ts) (hpeek : st.peek.kind ≠ .eof) (hcount : count ≤ 1)
    (hf : ∀ st', Passes ts st st' → st'.rest.length + 1 ≤ st.rest.length → Takes ts 0 (f ()) st') :
    Takes ts count (skip >>= f) st := by
  have hend : st.atEnd = false := by simp [ParseState.atEnd, hpeek]
  obtain ⟨hpass, hlength⟩ := passes_advance h hend
  exact (hf st.advance hpass hlength).of_later rfl hpass (by omega)

/-- An optional token, in each case with the action that follows. -/
theorem Takes.accept {f : Option Token → Parse β} {test : TokenKind → Bool} (h : st.Stands ts) (hcount : count ≤ 1)
    (hsome : ∀ t st', t ∈ ts → Passes ts st st' → st'.rest.length + 1 ≤ st.rest.length → Takes ts 0 (f (some t)) st')
    (hnone : Takes ts count (f none) st) : Takes ts count (accept? test >>= f) st := by
  by_cases hc : (!st.atEnd && test st.peek.kind) = true
  · have hend : st.atEnd = false := by simpa using (Bool.and_eq_true_iff.mp hc).1
    obtain ⟨hpass, hlength⟩ := passes_advance h hend
    have hrest := hsome st.peek st.advance h.peek_mem hpass hlength
    refine hrest.of_later ?_ hpass (by omega)
    simp only [Bind.bind, EStateM.bind, accept?, if_pos hc]
  · have hrun : (accept? test >>= f) st = f none st := by
      simp only [Bind.bind, EStateM.bind, accept?, if_neg hc]
    unfold Takes at hnone ⊢
    rwa [hrun]

theorem takes_expect (h : st.Stands ts) (kind : TokenKind) (mistake : Mistake) :
    Takes ts 1 (expect kind mistake) st := by
  unfold expect
  refine .accept h (Nat.le_refl 1) (fun t st₁ _ hpass _ => ?_) ?_
  · exact takes_pure (hpass.stands h) t
  · exact takes_fail h mistake

/-- A limit that is reported when it is passed, and then the action. -/
theorem takes_unlessReported {c : Prop} [Decidable c] {mistake : Mistake} {y : Unit → Parse β} (h : st.Stands ts)
    (hy : ∀ st', Passes ts st st' → Takes ts count (y ()) st') :
    Takes ts count (if c then (do let t ← peek; let r ← report t mistake; y r) else y ()) st := by
  split
  · exact .peek ((takes_report h h.peek_mem mistake).andThen fun _ st₁ hpass => hy st₁ hpass)
  · exact hy st (.refl h)

end Actions

/-! ## Depth -/

/-- A depth that is enough for a function of the given rank. -/
structure Room (ts : List Token) (rank depth : Nat) (st : ParseState) : Prop where
  stands : st.Stands ts
  depth_le : 16 * st.rest.length + rank ≤ depth

section Depth

variable {ts : List Token} {rank rank' depth : Nat} {st st' : ParseState}

theorem Room.mono (h : Room ts rank depth st) (hrank : rank' ≤ rank) : Room ts rank' depth st := by
  have := h.depth_le
  exact ⟨h.stands, by omega⟩

/-- A function of a lower rank may be entered where no token has been consumed. -/
theorem Room.enter (h : Room ts rank (depth + 1) st) (hrank : rank' < rank) : Room ts rank' depth st := by
  have := h.depth_le
  exact ⟨h.stands, by omega⟩

/-- Each token that has been consumed leaves room for fifteen ranks. -/
theorem Room.after (h : Room ts rank (depth + 1) st) (hpass : Passes ts st st')
    (hlength : st'.rest.length + 1 ≤ st.rest.length) : Room ts (rank + 15) depth st' := by
  have := h.depth_le
  exact ⟨hpass.stands h.stands, by omega⟩

theorem Room.pass (h : Room ts rank depth st) (hpass : Passes ts st st') : Room ts rank depth st' := by
  have := h.depth_le
  have := hpass.length_le
  exact ⟨hpass.stands h.stands, by omega⟩

theorem Room.not_zero (h : Room ts rank 0 st) : False := by
  have := h.depth_le
  have := h.stands.ended.length_pos
  omega

end Depth

/-! ## Expressions -/

section Targets

variable {ts : List Token} {st : ParseState} {op : Token}

theorem takes_assignTo (h : st.Stands ts) (hop : op ∈ ts) (target value : Expr) :
    Takes ts 0 (assignTo target op value) st := by
  unfold assignTo
  split
  · exact (takes_freshId h).bind fun id st₁ hpass _ => takes_pure (hpass.stands h) _
  · exact takes_pure h _
  · exact (takes_report h hop _).bind fun _ st₁ hpass _ => takes_pure (hpass.stands h) _

theorem takes_updateOf (h : st.Stands ts) (hop : op ∈ ts) (target value : Expr) :
    Takes ts 0 (updateOf target op value) st := by
  unfold updateOf
  split
  · exact (takes_freshId h).bind fun id st₁ hpass _ => takes_pure (hpass.stands h) _
  · exact (takes_report h hop _).bind fun _ st₁ hpass _ => takes_pure (hpass.stands h) _

end Targets

theorem takes_parameters {ts : List Token} (depth : Nat) :
    ∀ {count : Nat} {st : ParseState}, Room ts 0 depth st → Takes ts 1 (parameters depth count) st := by
  induction depth with
  | zero => exact fun hroom => hroom.not_zero.elim
  | succ depth ih =>
      intro count st hroom
      rw [parameters]
      refine takes_unlessReported hroom.stands fun st₀ h₀ => ?_
      have hroom := hroom.pass h₀
      refine (takes_expect hroom.stands _ _).bind fun name st₁ h₁ hlen₁ => ?_
      have hroom := hroom.after h₁ hlen₁
      refine .accept hroom.stands (Nat.zero_le 1) (fun _ st₂ _ h₂ _ => ?_) ?_
      · have hroom := hroom.pass h₂
        refine (ih (hroom.mono (Nat.zero_le _))).any.bind fun others st₃ h₃ _ => ?_
        exact takes_pure (hroom.pass h₃).stands _
      · exact takes_pure hroom.stands _

/-- The rank of the operands of a level. -/
def operandRank : Level → Nat
  | .logical => 10
  | .equality => 8
  | .comparison => 6
  | .term => 4
  | .factor => 2

theorem operandRank_le (level : Level) : operandRank level ≤ 10 := by
  cases level <;> decide

theorem operandRank_tighter {level tighter : Level} (h : level.tighter = some tighter) :
    operandRank tighter + 1 < operandRank level := by
  cases level <;> cases h <;> decide

theorem one_lt_operandRank (level : Level) : 1 < operandRank level := by
  cases level <;> decide

/-- The expression parsers of a depth make progress. -/
structure ExprTakes (ts : List Token) (depth : Nat) : Prop where
  expression : ∀ {st}, Room ts 13 depth st → Takes ts 1 (expression depth) st
  ternary : ∀ {st}, Room ts 12 depth st → Takes ts 1 (ternary depth) st
  chain : ∀ {st} level, Room ts (operandRank level + 1) depth st → Takes ts 1 (chain depth level) st
  chainRest : ∀ {st} level left, Room ts 0 depth st → Takes ts 0 (chainRest depth level left) st
  operand : ∀ {st} level, Room ts (operandRank level) depth st → Takes ts 1 (operand depth level) st
  unary : ∀ {st}, Room ts 1 depth st → Takes ts 1 (unary depth) st
  callRest : ∀ {st} subject, Room ts 0 depth st → Takes ts 0 (callRest depth subject) st
  arguments : ∀ {st} limit count, Room ts 14 depth st → Takes ts 1 (arguments depth limit count) st
  primary : ∀ {st}, Room ts 0 depth st → Takes ts 1 (primary depth) st

section ExprSteps

variable {ts : List Token} {depth : Nat} {st : ParseState}

theorem ExprTakes.expression_succ (ih : ExprTakes ts depth) (hroom : Room ts 13 (depth + 1) st) :
    Takes ts 1 (Parse.expression (depth + 1)) st := by
  rw [Parse.expression]
  refine (ih.ternary (hroom.enter (by decide))).bind fun target st₁ h₁ hlen₁ => ?_
  have hroom := hroom.after h₁ hlen₁
  refine .accept hroom.stands (Nat.zero_le 1) (fun equals st₂ hequals h₂ _ => ?_) ?_
  · have hroom := hroom.pass h₂
    refine (ih.expression (hroom.mono (by decide))).any.bind fun value st₃ h₃ _ => ?_
    exact takes_assignTo (hroom.pass h₃).stands hequals target value
  refine .accept hroom.stands (Nat.zero_le 1) (fun op st₂ hop h₂ _ => ?_) ?_
  · have hroom := hroom.pass h₂
    refine (ih.expression (hroom.mono (by decide))).any.bind fun value st₃ h₃ _ => ?_
    exact takes_updateOf (hroom.pass h₃).stands hop target value
  refine .accept hroom.stands (Nat.zero_le 1) (fun op st₂ hop h₂ _ => ?_) ?_
  · exact takes_updateOf (hroom.pass h₂).stands hop target _
  · exact takes_pure hroom.stands target

theorem ExprTakes.ternary_succ (ih : ExprTakes ts depth) (hroom : Room ts 12 (depth + 1) st) :
    Takes ts 1 (Parse.ternary (depth + 1)) st := by
  rw [Parse.ternary]
  refine (ih.chain .logical (hroom.enter (by decide))).bind fun test st₁ h₁ hlen₁ => ?_
  have hroom := hroom.after h₁ hlen₁
  refine .accept hroom.stands (Nat.zero_le 1) (fun _ st₂ _ h₂ _ => ?_) ?_
  · have hroom := hroom.pass h₂
    refine (ih.expression (hroom.mono (by decide))).any.bind fun whenTrue st₃ h₃ _ => ?_
    have hroom := hroom.pass h₃
    refine (takes_expect hroom.stands _ _).any.bind fun _ st₄ h₄ _ => ?_
    have hroom := hroom.pass h₄
    refine (ih.expression (hroom.mono (by decide))).any.bind fun whenFalse st₅ h₅ _ => ?_
    exact takes_pure (hroom.pass h₅).stands _
  · exact takes_pure hroom.stands test

theorem ExprTakes.chain_succ (ih : ExprTakes ts depth) (level : Level)
    (hroom : Room ts (operandRank level + 1) (depth + 1) st) : Takes ts 1 (Parse.chain (depth + 1) level) st := by
  rw [Parse.chain]
  refine (ih.operand level (hroom.enter (Nat.lt_succ_self _))).bind fun left st₁ h₁ hlen₁ => ?_
  exact ih.chainRest level left ((hroom.after h₁ hlen₁).mono (Nat.zero_le _))

theorem ExprTakes.chainRest_succ (ih : ExprTakes ts depth) (level : Level) (left : Expr)
    (hroom : Room ts 0 (depth + 1) st) : Takes ts 0 (Parse.chainRest (depth + 1) level left) st := by
  rw [Parse.chainRest]
  refine .accept hroom.stands (Nat.zero_le 1) (fun op st₁ _ h₁ hlen₁ => ?_) ?_
  · have hroom := hroom.after h₁ hlen₁
    have hrank : operandRank level ≤ 0 + 15 := Nat.le_trans (operandRank_le level) (by decide)
    refine (ih.operand level (hroom.mono hrank)).any.bind fun right st₂ h₂ _ => ?_
    exact ih.chainRest level _ ((hroom.pass h₂).mono (Nat.zero_le _))
  · exact takes_pure hroom.stands left

theorem ExprTakes.operand_succ (ih : ExprTakes ts depth) (level : Level)
    (hroom : Room ts (operandRank level) (depth + 1) st) : Takes ts 1 (Parse.operand (depth + 1) level) st := by
  rw [Parse.operand]
  cases htighter : level.tighter with
  | some tighter => exact ih.chain tighter (hroom.enter (operandRank_tighter htighter))
  | none => exact ih.unary (hroom.enter (one_lt_operandRank level))

theorem ExprTakes.unary_succ (ih : ExprTakes ts depth) (hroom : Room ts 1 (depth + 1) st) :
    Takes ts 1 (Parse.unary (depth + 1)) st := by
  rw [Parse.unary]
  refine .accept hroom.stands (Nat.le_refl 1) (fun op st₁ _ h₁ hlen₁ => ?_) ?_
  · have hroom := hroom.after h₁ hlen₁
    refine (ih.unary (hroom.mono (by decide))).any.bind fun operand st₂ h₂ _ => ?_
    exact takes_pure (hroom.pass h₂).stands _
  · refine (ih.primary (hroom.enter (by decide))).bind fun subject st₁ h₁ hlen₁ => ?_
    exact ih.callRest subject ((hroom.after h₁ hlen₁).mono (Nat.zero_le _))

theorem ExprTakes.callRest_succ (ih : ExprTakes ts depth) (subject : Expr) (hroom : Room ts 0 (depth + 1) st) :
    Takes ts 0 (Parse.callRest (depth + 1) subject) st := by
  rw [Parse.callRest]
  refine .peek ?_
  split
  · rename_i hkind
    refine .skip hroom.stands (by simp [hkind]) (Nat.zero_le 1) fun st₁ h₁ hlen₁ => ?_
    have hroom := hroom.after h₁ hlen₁
    refine .sees fun closed => ?_
    split
    · refine (takes_expect hroom.stands _ _).any.bind fun paren st₂ h₂ _ => ?_
      exact ih.callRest _ ((hroom.pass h₂).mono (Nat.zero_le _))
    · refine (ih.arguments _ _ (hroom.mono (by decide))).any.bind fun args st₂ h₂ _ => ?_
      have hroom := hroom.pass h₂
      refine (takes_expect hroom.stands _ _).any.bind fun paren st₃ h₃ _ => ?_
      exact ih.callRest _ ((hroom.pass h₃).mono (Nat.zero_le _))
  · rename_i hkind
    refine .skip hroom.stands (by simp [hkind]) (Nat.zero_le 1) fun st₁ h₁ hlen₁ => ?_
    have hroom := hroom.after h₁ hlen₁
    refine (takes_expect hroom.stands _ _).any.bind fun name st₂ h₂ _ => ?_
    exact ih.callRest _ ((hroom.pass h₂).mono (Nat.zero_le _))
  · rename_i hkind
    refine .skip hroom.stands (by simp [hkind]) (Nat.zero_le 1) fun st₁ h₁ hlen₁ => ?_
    have hroom := hroom.after h₁ hlen₁
    refine (ih.expression (hroom.mono (by decide))).any.bind fun position st₂ h₂ _ => ?_
    have hroom := hroom.pass h₂
    refine (takes_expect hroom.stands _ _).any.bind fun bracket st₃ h₃ _ => ?_
    exact ih.callRest _ ((hroom.pass h₃).mono (Nat.zero_le _))
  · exact takes_pure hroom.stands subject

theorem ExprTakes.arguments_succ (ih : ExprTakes ts depth) (limit : Option Nat) (count : Nat)
    (hroom : Room ts 14 (depth + 1) st) : Takes ts 1 (Parse.arguments (depth + 1) limit count) st := by
  rw [Parse.arguments]
  refine takes_unlessReported hroom.stands fun st₀ h₀ => ?_
  have hroom := hroom.pass h₀
  refine (ih.expression (hroom.enter (by decide))).bind fun first st₁ h₁ hlen₁ => ?_
  have hroom := hroom.after h₁ hlen₁
  refine .accept hroom.stands (Nat.zero_le 1) (fun _ st₂ _ h₂ _ => ?_) ?_
  · have hroom := hroom.pass h₂
    refine (ih.arguments _ _ (hroom.mono (by decide))).any.bind fun others st₃ h₃ _ => ?_
    exact takes_pure (hroom.pass h₃).stands _
  · exact takes_pure hroom.stands _

theorem ExprTakes.primary_succ (ih : ExprTakes ts depth) (hroom : Room ts 0 (depth + 1) st) :
    Takes ts 1 (Parse.primary (depth + 1)) st := by
  have literal : ∀ (value : Expr), st.peek.kind ≠ .eof → Takes ts 1 (do skip; return value) st := by
    intro value hpeek
    exact .skip hroom.stands hpeek (Nat.le_refl 1) fun st₁ h₁ _ => takes_pure (h₁.stands hroom.stands) value
  have reference : ∀ (node : NodeId → Expr), st.peek.kind ≠ .eof →
      Takes ts 1 (do skip; let id ← freshId; return node id) st := by
    intro node hpeek
    refine .skip hroom.stands hpeek (Nat.le_refl 1) fun st₁ h₁ _ => ?_
    have hst := h₁.stands hroom.stands
    exact (takes_freshId hst).bind fun id st₂ h₂ _ => takes_pure (h₂.stands hst) (node id)
  rw [Parse.primary]
  refine .peek ?_
  simp only
  split <;> rename_i hkind
  · exact reference _ (by simp [hkind])
  · exact literal _ (by simp [hkind])
  · exact literal _ (by simp [hkind])
  · exact literal _ (by simp [hkind])
  · exact literal _ (by simp [hkind])
  · exact literal _ (by simp [hkind])
  · exact reference _ (by simp [hkind])
  · refine .skip hroom.stands (by simp [hkind]) (Nat.le_refl 1) fun st₁ h₁ hlen₁ => ?_
    have hroom := hroom.after h₁ hlen₁
    refine (ih.expression (hroom.mono (by decide))).any.bind fun inner st₂ h₂ _ => ?_
    have hroom := hroom.pass h₂
    exact (takes_expect hroom.stands _ _).any.bind fun _ st₃ h₃ _ => takes_pure (hroom.pass h₃).stands _
  · refine .skip hroom.stands (by simp [hkind]) (Nat.le_refl 1) fun st₁ h₁ hlen₁ => ?_
    have hroom := hroom.after h₁ hlen₁
    refine .sees fun closed => ?_
    split
    · exact (takes_expect hroom.stands _ _).any.bind fun _ st₂ h₂ _ => takes_pure (hroom.pass h₂).stands _
    · refine (ih.arguments _ _ (hroom.mono (by decide))).any.bind fun items st₂ h₂ _ => ?_
      have hroom := hroom.pass h₂
      exact (takes_expect hroom.stands _ _).any.bind fun _ st₃ h₃ _ => takes_pure (hroom.pass h₃).stands _
  · exact takes_fail hroom.stands _

end ExprSteps

theorem exprTakes (ts : List Token) (depth : Nat) : ExprTakes ts depth := by
  induction depth with
  | zero => constructor <;> intros <;> exact (Room.not_zero ‹_›).elim
  | succ depth ih =>
      exact ⟨ih.expression_succ, ih.ternary_succ, ih.chain_succ, ih.chainRest_succ, ih.operand_succ, ih.unary_succ,
        ih.callRest_succ, ih.arguments_succ, ih.primary_succ⟩

/-! ## Statements -/

section Clauses

variable {ts : List Token} {depth : Nat} {st : ParseState}

theorem takes_variableDecl (hroom : Room ts 13 depth st) : Takes ts 1 (variableDecl depth) st := by
  unfold variableDecl
  refine (takes_expect hroom.stands _ _).bind fun name st₁ h₁ _ => ?_
  have hroom := hroom.pass h₁
  refine .accept hroom.stands (Nat.zero_le 1) (fun _ st₂ _ h₂ _ => ?_) ?_
  · have hroom := hroom.pass h₂
    refine Takes.bind ((exprTakes ts depth).expression hroom).map.any fun init st₃ h₃ _ => ?_
    have hroom := hroom.pass h₃
    exact (takes_expect hroom.stands _ _).any.bind fun _ st₄ h₄ _ => takes_pure (hroom.pass h₄).stands _
  · exact (takes_expect hroom.stands _ _).any.bind fun _ st₂ h₂ _ => takes_pure (hroom.pass h₂).stands _

theorem takes_expressionStmt (hroom : Room ts 13 depth st) : Takes ts 1 (expressionStmt depth) st := by
  unfold expressionStmt
  refine ((exprTakes ts depth).expression hroom).bind fun e st₁ h₁ _ => ?_
  have hroom := hroom.pass h₁
  exact (takes_expect hroom.stands _ _).any.bind fun _ st₂ h₂ _ => takes_pure (hroom.pass h₂).stands _

theorem takes_expressionUnless (hroom : Room ts 13 depth st) (kind : TokenKind) :
    Takes ts 0 (expressionUnless depth kind) st := by
  unfold expressionUnless
  refine .sees fun found => ?_
  split
  · exact takes_pure hroom.stands _
  · exact ((exprTakes ts depth).expression hroom).map.any

theorem takes_forInit (hroom : Room ts 13 depth st) : Takes ts 1 (forInit depth) st := by
  unfold forInit
  refine .peek ?_
  split
  · rename_i hkind
    exact .skip hroom.stands (by simp [hkind]) (Nat.le_refl 1) fun st₁ h₁ _ => takes_pure (hroom.pass h₁).stands _
  · rename_i hkind
    refine .skip hroom.stands (by simp [hkind]) (Nat.le_refl 1) fun st₁ h₁ _ => ?_
    exact (takes_variableDecl (hroom.pass h₁)).map.any
  · exact (takes_expressionStmt hroom).map

end Clauses

/-- The statement parsers of a depth make progress; a declaration that fails is recovered from. -/
structure StmtTakes (ts : List Token) (depth : Nat) : Prop where
  declaration : ∀ {st}, Room ts 16 depth st → st.atEnd = false → ∃ s st', declaration depth st = .ok s st' ∧
    Passes ts st st' ∧ st'.rest.length + 1 ≤ st.rest.length
  declarationOrHalt : ∀ {st}, Room ts 15 depth st → Takes ts 1 (declarationOrHalt depth) st
  statement : ∀ {st}, Room ts 14 depth st → Takes ts 1 (statement depth) st
  classDecl : ∀ {st}, Room ts 0 depth st → Takes ts 1 (classDecl depth) st
  methodList : ∀ {st}, Room ts 3 depth st → Takes ts 0 (methodList depth) st
  callable : ∀ {st} kind, Room ts 2 depth st → Takes ts 1 (callable depth kind) st
  ifStmt : ∀ {st}, Room ts 0 depth st → Takes ts 1 (ifStmt depth) st
  forStmt : ∀ {st}, Room ts 0 depth st → Takes ts 1 (forStmt depth) st
  whileStmt : ∀ {st}, Room ts 0 depth st → Takes ts 1 (whileStmt depth) st
  block : ∀ {st}, Room ts 17 depth st → Takes ts 1 (block depth) st

section StmtSteps

variable {ts : List Token} {depth : Nat} {st : ParseState}

/-- Recovery records the mistake and takes a token, unless one has been taken before it. -/
theorem passes_recover {st' : ParseState} {e : ParseError} (hst : st.Stands ts) (hend : st.atEnd = false)
    (hpass : Passes ts st st') (he : e.PointsInto ts) :
    Passes ts st (st'.recover e) ∧ (st'.recover e).rest.length + 1 ≤ st.rest.length := by
  obtain ⟨hsuffix, hended, hlength⟩ := hpass.ended.synchronize
  have hrecord : Passes ts st' (st'.recover e) := by
    refine ⟨hsuffix, hended, [e], rfl, ?_⟩
    intro e' he'
    cases List.mem_singleton.mp he'
    exact he
  refine ⟨hpass.trans hrecord, ?_⟩
  have hle := hpass.length_le
  have hle' := hsuffix.length_le
  show (synchronize st'.rest).length + 1 ≤ st.rest.length
  -- Where nothing was taken before the mistake, the token at which it was noticed is skipped.
  by_cases heq : st'.rest = st.rest
  · obtain ⟨rest, hrest, -⟩ := exists_rest hst.ended
    have hpeek : st.peek.kind ≠ .eof := by simpa [ParseState.atEnd] using hend
    have := hlength st.peek (by rw [heq, hrest]; rfl) hpeek
    omega
  · have hne : st'.rest.length ≠ st.rest.length := fun h => heq (hpass.suffix.eq_of_length h)
    omega

theorem StmtTakes.declaration_succ (ih : StmtTakes ts depth) (hroom : Room ts 16 (depth + 1) st)
    (hend : st.atEnd = false) : ∃ s st', Parse.declaration (depth + 1) st = .ok s st' ∧
      Passes ts st st' ∧ st'.rest.length + 1 ≤ st.rest.length := by
  have h := ih.declarationOrHalt (hroom.enter (by decide))
  unfold Takes at h
  rw [Parse.declaration]
  simp only
  cases hr : Parse.declarationOrHalt depth st with
  | ok s st' =>
      rw [hr] at h
      exact ⟨some s, st', rfl, h⟩
  | error halt st' =>
      rw [hr] at h
      cases halt with
      | mistake e => exact ⟨none, st'.recover e, rfl, passes_recover hroom.stands hend h.1 h.2⟩
      | exhausted => exact h.elim

theorem StmtTakes.takes_declaration (ih : StmtTakes ts depth) (hroom : Room ts 16 depth st) (hend : st.atEnd = false) :
    Takes ts 1 (Parse.declaration depth) st := by
  obtain ⟨s, st', hr, h⟩ := ih.declaration hroom hend
  unfold Takes
  rw [hr]
  exact h

theorem StmtTakes.declarationOrHalt_succ (ih : StmtTakes ts depth) (hroom : Room ts 15 (depth + 1) st) :
    Takes ts 1 (Parse.declarationOrHalt (depth + 1)) st := by
  rw [Parse.declarationOrHalt]
  refine .peek ?_
  split
  · rename_i hkind
    refine .skip hroom.stands (by simp [hkind]) (Nat.le_refl 1) fun st₁ h₁ hlen₁ => ?_
    exact (takes_variableDecl ((hroom.after h₁ hlen₁).mono (by decide))).any
  · exact ih.statement (hroom.enter (by decide))

theorem StmtTakes.statement_succ (ih : StmtTakes ts depth) (hroom : Room ts 14 (depth + 1) st) :
    Takes ts 1 (Parse.statement (depth + 1)) st := by
  rw [Parse.statement]
  refine .peek ?_
  -- after the keyword there is room for every statement
  have keyword : ∀ {y : Unit → Parse Stmt}, st.peek.kind ≠ .eof →
      (∀ st₁, Room ts 29 depth st₁ → Takes ts 0 (y ()) st₁) → Takes ts 1 (skip >>= y) st := by
    intro y hpeek hy
    exact .skip hroom.stands hpeek (Nat.le_refl 1) fun st₁ h₁ hlen₁ => hy st₁ (hroom.after h₁ hlen₁)
  split <;> rename_i hkind
  · exact keyword (by simp [hkind]) fun st₁ hroom => (ih.classDecl (hroom.mono (by decide))).any
  · refine keyword (by simp [hkind]) fun st₁ hroom => ?_
    unfold returnStmt
    refine (takes_expressionUnless (hroom.mono (by decide)) _).bind fun value st₂ h₂ _ => ?_
    have hroom := hroom.pass h₂
    exact (takes_expect hroom.stands _ _).any.bind fun _ st₃ h₃ _ => takes_pure (hroom.pass h₃).stands _
  · exact keyword (by simp [hkind]) fun st₁ hroom => (ih.callable _ (hroom.mono (by decide))).map.any
  · exact keyword (by simp [hkind]) fun st₁ hroom => (ih.ifStmt (hroom.mono (by decide))).any
  · exact keyword (by simp [hkind]) fun st₁ hroom => (ih.forStmt (hroom.mono (by decide))).any
  · exact keyword (by simp [hkind]) fun st₁ hroom => (ih.whileStmt (hroom.mono (by decide))).any
  · refine keyword (by simp [hkind]) fun st₁ hroom => ?_
    unfold printStmt
    refine ((exprTakes ts depth).expression (hroom.mono (by decide))).any.bind fun e st₂ h₂ _ => ?_
    have hroom := hroom.pass h₂
    exact (takes_expect hroom.stands _ _).any.bind fun _ st₃ h₃ _ => takes_pure (hroom.pass h₃).stands _
  · exact keyword (by simp [hkind]) fun st₁ hroom => (ih.block (hroom.mono (by decide))).map.any
  · exact takes_expressionStmt (hroom.enter (by decide))

theorem StmtTakes.classDecl_succ (ih : StmtTakes ts depth) (hroom : Room ts 0 (depth + 1) st) :
    Takes ts 1 (Parse.classDecl (depth + 1)) st := by
  rw [Parse.classDecl]
  refine (takes_expect hroom.stands _ _).bind fun name st₁ h₁ hlen₁ => ?_
  have hroom := hroom.after h₁ hlen₁
  refine (takes_expect hroom.stands _ _).any.bind fun _ st₂ h₂ _ => ?_
  have hroom := hroom.pass h₂
  refine (ih.methodList (hroom.mono (by decide))).bind fun methods st₃ h₃ _ => ?_
  have hroom := hroom.pass h₃
  exact (takes_expect hroom.stands _ _).any.bind fun _ st₄ h₄ _ => takes_pure (hroom.pass h₄).stands _

theorem StmtTakes.methodList_succ (ih : StmtTakes ts depth) (hroom : Room ts 3 (depth + 1) st) :
    Takes ts 0 (Parse.methodList (depth + 1)) st := by
  rw [Parse.methodList]
  refine .atBraceOrEnd fun done _ => ?_
  split
  · exact takes_pure hroom.stands _
  · suffices h : Takes ts 1 _ st from h.any
    refine (ih.callable _ (hroom.enter (by decide))).bind fun first st₁ h₁ hlen₁ => ?_
    have hroom := hroom.after h₁ hlen₁
    refine (ih.methodList (hroom.mono (by decide))).bind fun others st₂ h₂ _ => ?_
    exact takes_pure (hroom.pass h₂).stands _

theorem StmtTakes.callable_succ (ih : StmtTakes ts depth) (kind : DeclKind) (hroom : Room ts 2 (depth + 1) st) :
    Takes ts 1 (Parse.callable (depth + 1) kind) st := by
  rw [Parse.callable]
  refine (takes_expect hroom.stands _ _).bind fun name st₁ h₁ hlen₁ => ?_
  have hroom := hroom.after h₁ hlen₁
  refine (takes_expect hroom.stands _ _).any.bind fun _ st₂ h₂ _ => ?_
  have hroom := hroom.pass h₂
  have body : ∀ params st₃, Room ts 17 depth st₃ → Takes ts 0 (do
      let _ ← expect .rightParen .parenAfterParameters
      let _ ← expect .leftBrace (.braceBeforeDeclBody kind)
      let statements ← Parse.block depth
      return FunctionDecl.mk name.ident params statements) st₃ := by
    intro params st₃ hroom
    refine (takes_expect hroom.stands _ _).any.bind fun _ st₄ h₄ _ => ?_
    have hroom := hroom.pass h₄
    refine (takes_expect hroom.stands _ _).any.bind fun _ st₅ h₅ _ => ?_
    have hroom := hroom.pass h₅
    exact (ih.block hroom).any.bind fun statements st₆ h₆ _ => takes_pure (hroom.pass h₆).stands _
  refine .sees fun closed => ?_
  split
  · exact body [] st₂ hroom
  · refine (takes_parameters depth (hroom.mono (by decide))).any.bind fun params st₃ h₃ _ => ?_
    exact body params st₃ (hroom.pass h₃)

theorem StmtTakes.ifStmt_succ (ih : StmtTakes ts depth) (hroom : Room ts 0 (depth + 1) st) :
    Takes ts 1 (Parse.ifStmt (depth + 1)) st := by
  rw [Parse.ifStmt]
  refine (takes_expect hroom.stands _ _).bind fun _ st₁ h₁ hlen₁ => ?_
  have hroom := hroom.after h₁ hlen₁
  refine ((exprTakes ts depth).expression (hroom.mono (by decide))).any.bind fun test st₂ h₂ _ => ?_
  have hroom := hroom.pass h₂
  refine (takes_expect hroom.stands _ _).any.bind fun _ st₃ h₃ _ => ?_
  have hroom := hroom.pass h₃
  refine (ih.statement (hroom.mono (by decide))).any.bind fun whenTrue st₄ h₄ _ => ?_
  have hroom := hroom.pass h₄
  refine .accept hroom.stands (Nat.zero_le 1) (fun _ st₅ _ h₅ _ => ?_) ?_
  · have hroom := hroom.pass h₅
    refine (ih.statement (hroom.mono (by decide))).any.bind fun whenFalse st₆ h₆ _ => ?_
    exact takes_pure (hroom.pass h₆).stands _
  · exact takes_pure hroom.stands _

theorem StmtTakes.forStmt_succ (ih : StmtTakes ts depth) (hroom : Room ts 0 (depth + 1) st) :
    Takes ts 1 (Parse.forStmt (depth + 1)) st := by
  rw [Parse.forStmt]
  refine (takes_expect hroom.stands _ _).bind fun _ st₁ h₁ hlen₁ => ?_
  have hroom := hroom.after h₁ hlen₁
  refine (takes_forInit (hroom.mono (by decide))).any.bind fun init st₂ h₂ _ => ?_
  have hroom := hroom.pass h₂
  refine (takes_expressionUnless (hroom.mono (by decide)) _).bind fun test st₃ h₃ _ => ?_
  have hroom := hroom.pass h₃
  refine (takes_expect hroom.stands _ _).any.bind fun _ st₄ h₄ _ => ?_
  have hroom := hroom.pass h₄
  refine (takes_expressionUnless (hroom.mono (by decide)) _).bind fun step st₅ h₅ _ => ?_
  have hroom := hroom.pass h₅
  refine (takes_expect hroom.stands _ _).any.bind fun _ st₆ h₆ _ => ?_
  have hroom := hroom.pass h₆
  refine (ih.statement (hroom.mono (by decide))).any.bind fun body st₇ h₇ _ => ?_
  exact takes_pure (hroom.pass h₇).stands _

theorem StmtTakes.whileStmt_succ (ih : StmtTakes ts depth) (hroom : Room ts 0 (depth + 1) st) :
    Takes ts 1 (Parse.whileStmt (depth + 1)) st := by
  rw [Parse.whileStmt]
  refine (takes_expect hroom.stands _ _).bind fun _ st₁ h₁ hlen₁ => ?_
  have hroom := hroom.after h₁ hlen₁
  refine ((exprTakes ts depth).expression (hroom.mono (by decide))).any.bind fun test st₂ h₂ _ => ?_
  have hroom := hroom.pass h₂
  refine (takes_expect hroom.stands _ _).any.bind fun _ st₃ h₃ _ => ?_
  have hroom := hroom.pass h₃
  refine (ih.statement (hroom.mono (by decide))).any.bind fun body st₄ h₄ _ => ?_
  exact takes_pure (hroom.pass h₄).stands _

theorem StmtTakes.block_succ (ih : StmtTakes ts depth) (hroom : Room ts 17 (depth + 1) st) :
    Takes ts 1 (Parse.block (depth + 1)) st := by
  rw [Parse.block]
  refine .atBraceOrEnd fun done hdone => ?_
  split
  · exact (takes_expect hroom.stands _ _).bind fun _ st₁ h₁ _ => takes_pure (h₁.stands hroom.stands) _
  · refine (ih.takes_declaration (hroom.enter (by decide)) (hdone (by simp_all))).bind fun first st₁ h₁ hlen₁ => ?_
    have hroom := hroom.after h₁ hlen₁
    refine (ih.block (hroom.mono (by decide))).any.bind fun others st₂ h₂ _ => ?_
    exact takes_pure (hroom.pass h₂).stands _

end StmtSteps

theorem stmtTakes (ts : List Token) (depth : Nat) : StmtTakes ts depth := by
  induction depth with
  | zero => constructor <;> intros <;> exact (Room.not_zero ‹_›).elim
  | succ depth ih =>
      exact ⟨ih.declaration_succ, ih.declarationOrHalt_succ, ih.statement_succ, ih.classDecl_succ, ih.methodList_succ,
        ih.callable_succ, ih.ifStmt_succ, ih.forStmt_succ, ih.whileStmt_succ, ih.block_succ⟩

theorem declarations_atEnd {st : ParseState} (hend : st.atEnd = true) (depth : Nat) :
    declarations (depth + 1) st = .ok [] st := by
  simp only [declarations, Bind.bind, EStateM.bind, atEnd, hend, if_true]
  rfl

theorem declarations_next {st : ParseState} (hend : st.atEnd = false) (depth : Nat) :
    declarations (depth + 1) st = (do
      let first ← declaration depth
      let others ← declarations depth
      return first.toList ++ others : Parse Program) st := by
  simp only [declarations, Bind.bind, EStateM.bind, atEnd, hend, Bool.false_eq_true, if_false]

/-- **The declarations of a program are read to the end token.** -/
theorem declarations_ok {ts : List Token} (depth : Nat) : ∀ {st : ParseState}, Room ts 17 depth st →
    ∃ p st', declarations depth st = .ok p st' ∧ Passes ts st st' ∧ st'.atEnd = true := by
  induction depth with
  | zero => exact fun hroom => hroom.not_zero.elim
  | succ depth ih =>
      intro st hroom
      by_cases hend : st.atEnd = true
      · exact ⟨[], st, declarations_atEnd hend depth, .refl hroom.stands, hend⟩
      · have hnot : st.atEnd = false := by simpa using hend
        obtain ⟨first, st₁, hfirst, h₁, hlen₁⟩ := (stmtTakes ts depth).declaration (hroom.enter (by decide)) hnot
        obtain ⟨others, st₂, hothers, h₂, hend₂⟩ := ih ((hroom.after h₁ hlen₁).mono (by decide))
        refine ⟨first.toList ++ others, st₂, ?_, h₁.trans h₂, hend₂⟩
        rw [declarations_next hnot]
        simp only [Bind.bind, EStateM.bind, hfirst, hothers]
        rfl

end Parse

section Outcome

variable {firstId : NodeId} {ts : List Token}

theorem declarations_parseDepth (firstId : NodeId) (h : Ended ts) : ∃ p st,
    Parse.declarations (parseDepth ts.length) ⟨ts, firstId, []⟩ = .ok p st ∧ ∀ e ∈ st.errors, e.PointsInto ts := by
  have hroom : Parse.Room ts 17 (parseDepth ts.length) ⟨ts, firstId, []⟩ := by
    refine ⟨⟨h, List.suffix_rfl⟩, ?_⟩
    show 16 * ts.length + 17 ≤ 16 * (ts.length + 2)
    omega
  obtain ⟨p, st, hr, hpass, -⟩ := Parse.declarations_ok _ hroom
  obtain ⟨new, hnew, hpoints⟩ := hpass.errors
  refine ⟨p, st, hr, ?_⟩
  rw [hnew]
  exact hpoints

/-- **A failed parse has an error, and all of its errors are at tokens.** -/
theorem parse_error {errors : List ParseError} (h : Ended ts) (herror : (parse firstId ts).program = .error errors) :
    errors ≠ [] ∧ ∀ e ∈ errors, e.PointsInto ts := by
  obtain ⟨p, st, hr, hpoints⟩ := declarations_parseDepth firstId h
  unfold parse at herror
  rw [hr] at herror
  dsimp only at herror
  split at herror
  · cases herror
  · rename_i hempty
    cases herror
    refine ⟨?_, hpoints⟩
    intro hnil
    simp [hnil] at hempty

end Outcome

end Scriptlet
