import Scriptlet.Proofs.Grammar.Sound
import Scriptlet.Proofs.Tree.Nodes

/-!
# What is in the grammar is read: expressions

`Reads x ts rest E` — in front of `rest` the action `x` consumes exactly the tokens `ts`, records no error
and returns something that satisfies `E`.  `ReadsTo` is the form for actions that loop: after the tokens
`ts` the action goes on like another one.

A phrase is read as far as it reaches when the token after it cannot continue it (`continuesExpr` and
its kin).  The conditional expression `c ? a : b` ends with an expression and is continued by whatever
continues that.

Principal result: `DerivesExpr.reads` — a derived expression is read, as the derived tree up to node
ids, whenever sixteen steps a token are allowed.
-/

set_option autoImplicit false

namespace Scriptlet.Grammar

open Parse

/-- The action consumes the tokens and goes on like another one. -/
def ReadsTo {α β : Type} (x : Parse β) (k : α → Parse β) (ts rest : List Token) (E : α → Prop) : Prop :=
  ∀ n errs, ∃ a n', E a ∧ x ⟨ts ++ rest, n, errs⟩ = k a ⟨rest, n', errs⟩

/-- The action consumes the tokens and ends. -/
abbrev Reads {α : Type} (x : Parse α) (ts rest : List Token) (E : α → Prop) : Prop :=
  ReadsTo x pure ts rest E

section Actions

variable {α β γ : Type} {ts rest : List Token} {t : Token} {E : γ → Prop} {k : γ → Parse β}

theorem ReadsTo.mono {x : Parse β} {E' : γ → Prop} (h : ReadsTo x k ts rest E)
    (hE : ∀ a, E a → E' a) : ReadsTo x k ts rest E' := by
  intro n errs
  obtain ⟨a, n', ha, hx⟩ := h n errs
  exact ⟨a, n', hE a ha, hx⟩

theorem ReadsTo.refl {a : γ} (h : E a) : ReadsTo (k a) k [] rest E :=
  fun n _ => ⟨a, n, h, rfl⟩

theorem ReadsTo.trans {x : Parse β} {j : α → Parse β} {l : List Token} {E₁ : α → Prop}
    (hx : ReadsTo x j l (ts ++ rest) E₁) (hj : ∀ a, E₁ a → ReadsTo (j a) k ts rest E) :
    ReadsTo x k (l ++ ts) rest E := by
  intro n errs
  obtain ⟨a, n₁, ha, h₁⟩ := hx n errs
  obtain ⟨b, n₂, hb, h₂⟩ := hj a ha n₁ errs
  exact ⟨b, n₂, hb, by rw [List.append_assoc, h₁, h₂]⟩

theorem Reads.andThen {x : Parse α} {f : α → Parse β} {E : α → Prop} (hx : Reads x ts rest E) :
    ReadsTo (x >>= f) f ts rest E := by
  intro n errs
  obtain ⟨a, n', ha, h⟩ := hx n errs
  exact ⟨a, n', ha, by simp only [bind, EStateM.bind, h]; rfl⟩

theorem Reads.bind {x : Parse α} {f : α → Parse β} {l : List Token} {E₁ : α → Prop}
    (hx : Reads x l (ts ++ rest) E₁) (hf : ∀ a, E₁ a → ReadsTo (f a) k ts rest E) :
    ReadsTo (x >>= f) k (l ++ ts) rest E :=
  hx.andThen.trans hf

theorem Reads.map {x : Parse α} {g : α → β} {E₁ : α → Prop} {E : β → Prop}
    (hx : Reads x ts rest E₁) (hg : ∀ a, E₁ a → E (g a)) : Reads (g <$> x) ts rest E := by
  intro n errs
  obtain ⟨a, n', ha, h⟩ := hx n errs
  exact ⟨g a, n', hg a ha, by simp only [Functor.map, EStateM.map, h]; rfl⟩

theorem reads_peek {f : Token → Parse β} (h : ReadsTo (f (first (ts ++ rest))) k ts rest E) :
    ReadsTo (peek >>= f) k ts rest E :=
  h

theorem reads_freshId {f : NodeId → Parse β} (h : ∀ id, ReadsTo (f id) k ts rest E) :
    ReadsTo (freshId >>= f) k ts rest E :=
  fun n errs => h n (n + 1) errs

theorem reads_skip {f : Unit → Parse β} (ht : t.kind ≠ .eof) (h : ReadsTo (f ()) k ts rest E) :
    ReadsTo (skip >>= f) k (t :: ts) rest E := by
  intro n errs
  obtain ⟨a, n', ha, hx⟩ := h n errs
  refine ⟨a, n', ha, ?_⟩
  rw [← hx]
  simp [bind, EStateM.bind, skip, ParseState.advance, ParseState.atEnd, ParseState.peek, ht]

theorem reads_accept {test : TokenKind → Bool} {f : Option Token → Parse β} (ht : t.kind ≠ .eof)
    (htest : test t.kind = true) (h : ReadsTo (f (some t)) k ts rest E) :
    ReadsTo (accept? test >>= f) k (t :: ts) rest E := by
  intro n errs
  obtain ⟨a, n', ha, hx⟩ := h n errs
  refine ⟨a, n', ha, ?_⟩
  rw [← hx]
  simp [bind, EStateM.bind, accept?, ParseState.advance, ParseState.atEnd, ParseState.peek, ht, htest]

theorem reads_refuse {test : TokenKind → Bool} {f : Option Token → Parse β}
    (htest : test (first (ts ++ rest)).kind = false) (h : ReadsTo (f none) k ts rest E) :
    ReadsTo (accept? test >>= f) k ts rest E := by
  intro n errs
  obtain ⟨a, n', ha, hx⟩ := h n errs
  refine ⟨a, n', ha, ?_⟩
  have hpeek : test (ParseState.mk (ts ++ rest) n errs).peek.kind = false := htest
  rw [← hx]
  simp [bind, EStateM.bind, accept?, hpeek]

theorem reads_expect {kind : TokenKind} {m : Mistake} {f : Token → Parse β} (ht : t.kind = kind)
    (hkind : kind ≠ .eof) (h : ReadsTo (f t) k ts rest E) :
    ReadsTo (expect kind m >>= f) k (t :: ts) rest E := by
  unfold expect
  rw [bind_assoc]
  exact reads_accept (by rwa [ht]) (by simp [ht]) (by simpa using h)

theorem reads_sees {test : TokenKind → Bool} {f : Bool → Parse β}
    (hend : (first (ts ++ rest)).kind ≠ .eof)
    (h : ReadsTo (f (test (first (ts ++ rest)).kind)) k ts rest E) :
    ReadsTo (sees test >>= f) k ts rest E := by
  intro n errs
  obtain ⟨a, n', ha, hx⟩ := h n errs
  refine ⟨a, n', ha, ?_⟩
  have hpeek : first (ts ++ rest) = (ParseState.mk (ts ++ rest) n errs).peek := rfl
  rw [hpeek] at hend hx
  rw [← hx]
  simp [bind, EStateM.bind, sees, ParseState.atEnd, hend]

end Actions

/-! ## First tokens -/

/-- The tokens that start a primary expression. -/
def startsPrimary : TokenKind → Bool
  | .kwThis | .kwFalse | .kwTrue | .kwNull | .number _ | .string _ => true
  | .identifier | .leftParen | .leftBracket => true
  | _ => false

/-- The tokens that start an expression. -/
def startsExpr (k : TokenKind) : Bool := startsPrimary k || isUnaryOperator k

/-- The tokens that start a phrase. -/
def ExprSymbol.starts : ExprSymbol → TokenKind → Bool
  | .call | .primary => startsPrimary
  | _ => startsExpr

theorem DerivesExpr.head {s : ExprSymbol} {ts : List Token} {e : s.Tree} (h : DerivesExpr s ts e) :
    ∃ t l, ts = t :: l ∧ s.starts t.kind = true := by
  induction h with
  | plain _ ih | unconditional _ ih | single _ ih | logicalOperand _ ih | equalityOperand _ ih
  | comparisonOperand _ ih | termOperand _ ih | factorOperand _ ih | primaryCall _ ih
  | one _ ih => exact ih
  | assign _ _ _ ih | set _ _ _ ih | compound _ _ _ ih | step _ _ ih | conditional _ _ _ _ _ ih
  | joinLogical _ _ _ ih | joinBinary _ _ _ _ ih | call _ _ _ _ _ ih | callNone _ _ _ ih
  | get _ _ _ ih | index _ _ _ _ ih | more _ _ _ ih =>
      obtain ⟨t, l, rfl, ht⟩ := ih
      exact ⟨t, _, rfl, ht⟩
  | callUnary _ ih =>
      obtain ⟨t, l, rfl, ht⟩ := ih
      exact ⟨t, l, rfl, by simp_all [ExprSymbol.starts, startsExpr]⟩
  | unary hop _ _ =>
      exact ⟨_, _, rfl, by simp [ExprSymbol.starts, startsExpr, (isUnaryOperator_iff _).2 hop]⟩
  | number h | string h | trueLit h | falseLit h | nullLit h | this h | name h | group h _ _ _
  | array h _ _ _ | arrayNone h _ =>
      exact ⟨_, _, rfl, by simp [ExprSymbol.starts, startsPrimary, h]⟩

/-! ## Tokens that continue a phrase -/

/-- The tokens that continue a call. -/
def suffixes : List TokenKind := [.leftParen, .dot, .leftBracket]

/-- The tokens that continue an operand of a level. -/
def continuesOperand : Level → List TokenKind
  | .factor => suffixes
  | .term => operators .factor ++ suffixes
  | .comparison => operators .term ++ operators .factor ++ suffixes
  | .equality => operators .comparison ++ operators .term ++ operators .factor ++ suffixes
  | .logical => operators .equality ++ operators .comparison ++ operators .term ++
      operators .factor ++ suffixes

/-- The tokens that continue a binary expression of the loosest level, or make it a condition. -/
def continuesTest : List TokenKind :=
  .question :: operators .logical ++ continuesOperand .logical

/-- The tokens that continue an expression. -/
def continuesExpr : List TokenKind :=
  .equal :: compoundOperators ++ stepOperators ++ continuesTest

/-- The tokens that continue a conditional expression; its last branch is an expression. -/
def continuesTernary : Expr → List TokenKind
  | .ternary _ _ _ => continuesExpr
  | _ => continuesTest

/-- The depth for operands of a level, beyond sixteen a token. -/
def operandDepth : Level → Nat
  | .factor => 2
  | .term => 4
  | .comparison => 6
  | .equality => 8
  | .logical => 10

/-- A derived phrase is read in front of a token that does not continue it.  The loops for binary
expressions and calls are described up to the point where they look for more. -/
def ExprReads : (s : ExprSymbol) → List Token → s.Tree → Prop
  | .expression, ts, e => ∀ depth rest, 16 * ts.length + 13 ≤ depth →
      (first rest).kind ∉ continuesExpr →
      Reads (Parse.expression depth) ts rest fun a => a.eraseIds = e.eraseIds
  | .ternary, ts, e => ∀ depth rest, 16 * ts.length + 12 ≤ depth →
      (first rest).kind ∉ continuesTernary e →
      Reads (Parse.ternary depth) ts rest fun a => a.eraseIds = e.eraseIds
  | .binary level, ts, e => ∀ depth rest, 16 * ts.length + operandDepth level + 1 ≤ depth →
      (first rest).kind ∉ continuesOperand level → ∃ depth', depth ≤ depth' + ts.length ∧
      ReadsTo (chain depth level) (chainRest depth' level) ts rest fun a => a.eraseIds = e.eraseIds
  | .operand level, ts, e => ∀ depth rest, 16 * ts.length + operandDepth level ≤ depth →
      (first rest).kind ∉ continuesOperand level →
      Reads (Parse.operand depth level) ts rest fun a => a.eraseIds = e.eraseIds
  | .unary, ts, e => ∀ depth rest, 16 * ts.length + 1 ≤ depth → (first rest).kind ∉ suffixes →
      Reads (Parse.unary depth) ts rest fun a => a.eraseIds = e.eraseIds
  | .call, ts, e => ∀ depth rest, 16 * ts.length ≤ depth → ∃ depth', depth ≤ depth' + ts.length ∧
      ReadsTo (Parse.primary depth >>= callRest depth) (callRest depth') ts rest
        fun a => a.eraseIds = e.eraseIds
  | .primary, ts, e => ∀ depth rest, 16 * ts.length ≤ depth →
      Reads (Parse.primary depth) ts rest fun a => a.eraseIds = e.eraseIds
  | .arguments, ts, es => ∀ depth rest limit count, 16 * ts.length + 14 ≤ depth →
      (first rest).kind ≠ .comma → (first rest).kind ∉ continuesExpr →
      (∀ n, limit = some n → count + es.length ≤ n) →
      Reads (Parse.arguments depth limit count) ts rest fun as =>
        Expr.mapIdsAll (fun _ => 0) as = Expr.mapIdsAll (fun _ => 0) es

section ExprSteps

variable {ts rest : List Token} {level : Level}

theorem refuses_equal {k : TokenKind} (h : k ∉ continuesExpr) : decide (k = .equal) = false := by
  simp_all [continuesExpr]

theorem refuses_compound {k : TokenKind} (h : k ∉ continuesExpr) : isCompoundAssign k = false := by
  have hk : ¬ isCompoundAssign k = true := by
    rw [isCompoundAssign_iff]; simp_all [continuesExpr]
  simpa using hk

theorem refuses_step {k : TokenKind} (h : k ∉ continuesExpr) : isStep k = false := by
  have hk : ¬ isStep k = true := by
    rw [isStep_iff]; simp_all [continuesExpr]
  simpa using hk

theorem refuses_operator {k : TokenKind} (h : k ∉ operators level) : level.isOperator k = false := by
  rw [← isOperator_iff] at h
  simpa using h

/-- What continues a condition continues an expression. -/
theorem not_continuesTest {k : TokenKind} (h : k ∉ continuesExpr) : k ∉ continuesTest := by
  simp_all [continuesExpr]

theorem not_continuesTernary {k : TokenKind} (e : Expr) (h : k ∉ continuesExpr) :
    k ∉ continuesTernary e := by
  cases e <;> first | exact h | exact not_continuesTest h

theorem not_continuesTest_of_ternary {k : TokenKind} {e : Expr} (h : k ∉ continuesTernary e) :
    k ∉ continuesTest := by
  cases e <;> first | exact h | exact not_continuesTest h

/-- The operators of a level end the loop of its operands. -/
theorem chainRest_ends {depth : Nat} {e : Expr} (hdepth : 0 < depth)
    (h : (first rest).kind ∉ operators level) :
    Reads (chainRest depth level e) [] rest (· = e) := by
  obtain ⟨depth, rfl⟩ := Nat.exists_eq_add_of_lt hdepth
  rw [Nat.zero_add, chainRest]
  exact reads_refuse (refuses_operator h) (.refl rfl)

theorem ExprReads.chain {e : Expr} (h : ExprReads (.binary level) ts e)
    {depth : Nat} (hdepth : 16 * ts.length + operandDepth level + 1 ≤ depth)
    (hrest : (first rest).kind ∉ operators level ++ continuesOperand level) :
    Reads (Parse.chain depth level) ts rest fun a => a.eraseIds = e.eraseIds := by
  simp only [List.mem_append, not_or] at hrest
  obtain ⟨depth', hd, hchain⟩ := h depth rest hdepth hrest.2
  refine List.append_nil ts ▸ hchain.trans fun a ha => ?_
  exact (chainRest_ends (by omega) hrest.1).mono fun b hb => hb ▸ ha

theorem ExprReads.plain {e : Expr} (h : ExprReads .ternary ts e) : ExprReads .expression ts e := by
  intro depth rest hdepth hrest
  obtain ⟨depth, rfl⟩ := Nat.exists_eq_add_of_lt (show 0 < depth by omega)
  rw [Nat.zero_add, Parse.expression, ← List.append_nil ts]
  refine Reads.bind (h depth _ (by omega) (not_continuesTernary e hrest)) fun a ha => ?_
  refine reads_refuse (refuses_equal hrest) (reads_refuse (refuses_compound hrest) ?_)
  exact reads_refuse (refuses_step hrest) (.refl ha)

/-- A tree that is a variable up to ids is a variable. -/
theorem eq_var_of_eraseIds {a : Expr} {id : NodeId} {name : Ident}
    (h : a.eraseIds = (Expr.var id name).eraseIds) : ∃ id', a = .var id' name := by
  cases a <;> simp_all [Expr.mapIds]

theorem eq_get_of_eraseIds {a object : Expr} {name : Ident}
    (h : a.eraseIds = (Expr.get object name).eraseIds) :
    ∃ o, a = .get o name ∧ o.eraseIds = object.eraseIds := by
  cases a <;> simp_all [Expr.mapIds]

/-- A target and an operator that is not part of it. -/
theorem ExprReads.target {target : List Token} {op : Token} {e : Expr} {f : Expr → Parse Expr}
    {E : Expr → Prop} {depth : Nat} (h : ExprReads .ternary target e) (hop : op.kind ∉ continuesTest)
    (he : ∀ c a b, e ≠ .ternary c a b) (hdepth : 16 * target.length + 12 ≤ depth)
    (hf : ∀ a, a.eraseIds = e.eraseIds → Reads (f a) (op :: ts) rest E) :
    Reads (Parse.ternary depth >>= f) (target ++ op :: ts) rest E := by
  refine Reads.bind (h depth _ hdepth ?_) hf
  cases e <;> first | exact hop | exact absurd rfl (he _ _ _)

theorem ExprReads.assign {target value : List Token} {op : Token} {id id' : NodeId} {name : Ident}
    {e : Expr} (ht : ExprReads .ternary target (.var id name)) (hop : op.kind = .equal)
    (hv : ExprReads .expression value e) :
    ExprReads .expression (target ++ op :: value) (.assign id' name e) := by
  intro depth rest hdepth hrest
  simp only [List.length_append, List.length_cons] at hdepth
  obtain ⟨depth, rfl⟩ := Nat.exists_eq_add_of_lt (show 0 < depth by omega)
  rw [Nat.zero_add, Parse.expression]
  refine ht.target (by simp [hop, continuesTest, operators, continuesOperand, suffixes]) (by simp)
    (by omega) fun a ha => reads_accept (by simp [hop]) (by simp [hop]) ?_
  obtain ⟨id₁, rfl⟩ := eq_var_of_eraseIds ha
  rw [← List.append_nil value]
  refine Reads.bind (hv depth _ (by omega) hrest) fun b hb => reads_freshId fun id₂ => .refl ?_
  simpa [Expr.mapIds] using hb

theorem ExprReads.set {target value : List Token} {op : Token} {object : Expr} {name : Ident}
    {e : Expr} (ht : ExprReads .ternary target (.get object name)) (hop : op.kind = .equal)
    (hv : ExprReads .expression value e) :
    ExprReads .expression (target ++ op :: value) (.set object name e) := by
  intro depth rest hdepth hrest
  simp only [List.length_append, List.length_cons] at hdepth
  obtain ⟨depth, rfl⟩ := Nat.exists_eq_add_of_lt (show 0 < depth by omega)
  rw [Nat.zero_add, Parse.expression]
  refine ht.target (by simp [hop, continuesTest, operators, continuesOperand, suffixes]) (by simp)
    (by omega) fun a ha => reads_accept (by simp [hop]) (by simp [hop]) ?_
  obtain ⟨o, rfl, ho⟩ := eq_get_of_eraseIds ha
  rw [← List.append_nil value]
  refine Reads.bind (hv depth _ (by omega) hrest) fun b hb => ?_
  rw [assignTo]
  exact .refl (by simpa [Expr.mapIds] using ⟨ho, hb⟩)

/-- The compound operators neither continue a condition nor are plain assignments. -/
theorem compound_spec :
    ∀ k ∈ compoundOperators, k ∉ continuesTest ∧ k ≠ .equal ∧ k ≠ .eof := by
  decide

theorem step_spec : ∀ k ∈ stepOperators,
    k ∉ continuesTest ∧ k ≠ .equal ∧ k ∉ compoundOperators ∧ k ≠ .eof := by
  decide

theorem ExprReads.compound {target value : List Token} {op : Token} {id id' : NodeId} {name : Ident}
    {e : Expr} (ht : ExprReads .ternary target (.var id name)) (hop : op.kind ∈ compoundOperators)
    (hv : ExprReads .expression value e) :
    ExprReads .expression (target ++ op :: value) (.update id' name op e) := by
  intro depth rest hdepth hrest
  simp only [List.length_append, List.length_cons] at hdepth
  obtain ⟨depth, rfl⟩ := Nat.exists_eq_add_of_lt (show 0 < depth by omega)
  obtain ⟨hcont, hequal, heof⟩ := compound_spec _ hop
  rw [Nat.zero_add, Parse.expression]
  refine ht.target hcont (by simp) (by omega) fun a ha => reads_refuse (decide_eq_false hequal) ?_
  refine reads_accept heof ((isCompoundAssign_iff _).2 hop) ?_
  obtain ⟨id₁, rfl⟩ := eq_var_of_eraseIds ha
  rw [← List.append_nil value]
  refine Reads.bind (hv depth _ (by omega) hrest) fun b hb => reads_freshId fun id₂ => .refl ?_
  simpa [Expr.mapIds] using hb

theorem ExprReads.step {target : List Token} {op : Token} {id id' : NodeId} {name : Ident}
    (ht : ExprReads .ternary target (.var id name)) (hop : op.kind ∈ stepOperators) :
    ExprReads .expression (target ++ [op]) (.update id' name op (.lit (.number 1.0))) := by
  intro depth rest hdepth hrest
  simp only [List.length_append, List.length_singleton] at hdepth
  obtain ⟨depth, rfl⟩ := Nat.exists_eq_add_of_lt (show 0 < depth by omega)
  obtain ⟨hcont, hequal, hcompound, heof⟩ := step_spec _ hop
  rw [← isCompoundAssign_iff, Bool.not_eq_true] at hcompound
  rw [Nat.zero_add, Parse.expression]
  refine ht.target hcont (by simp) (by omega) fun a ha => reads_refuse (decide_eq_false hequal) ?_
  refine reads_refuse (by simpa using hcompound) (reads_accept heof ((isStep_iff _).2 hop) ?_)
  obtain ⟨id₁, rfl⟩ := eq_var_of_eraseIds ha
  exact reads_freshId fun id₂ => .refl (by simp [Expr.mapIds])

theorem ExprReads.unconditional {e : Expr} (h : ExprReads (.binary .logical) ts e) :
    ExprReads .ternary ts e := by
  intro depth rest hdepth hrest
  obtain ⟨depth, rfl⟩ := Nat.exists_eq_add_of_lt (show 0 < depth by omega)
  have hrest := not_continuesTest_of_ternary hrest
  simp only [continuesTest, List.cons_append, List.mem_cons, not_or] at hrest
  rw [Nat.zero_add, Parse.ternary, ← List.append_nil ts]
  refine Reads.bind (h.chain (by simp only [operandDepth]; omega) hrest.2) fun a ha => ?_
  exact reads_refuse (by simpa using hrest.1) (.refl ha)

theorem ExprReads.conditional {test whenTrue whenFalse : List Token} {question colon : Token}
    {c a b : Expr} (hc : ExprReads (.binary .logical) test c) (hq : question.kind = .question)
    (ha : ExprReads .expression whenTrue a) (hcolon : colon.kind = .colon)
    (hb : ExprReads .expression whenFalse b) :
    ExprReads .ternary (test ++ question :: whenTrue ++ colon :: whenFalse) (.ternary c a b) := by
  intro depth rest hdepth hrest
  simp only [List.length_append, List.length_cons] at hdepth
  obtain ⟨depth, rfl⟩ := Nat.exists_eq_add_of_lt (show 0 < depth by omega)
  rw [Nat.zero_add, Parse.ternary, List.append_assoc, List.cons_append]
  refine Reads.bind (hc.chain (by simp only [operandDepth]; omega) ?_) fun c' hc' => ?_
  · simp [hq, operators, continuesOperand, suffixes]
  refine reads_accept (by simp [hq]) (by simp [hq]) ?_
  refine Reads.bind (ha depth _ (by omega) ?_) fun a' ha' => ?_
  · simp [hcolon, continuesExpr, compoundOperators, stepOperators, continuesTest, operators,
      continuesOperand, suffixes]
  refine reads_expect hcolon (by simp) ?_
  rw [← List.append_nil whenFalse]
  refine Reads.bind (hb depth _ (by omega) hrest) fun b' hb' => .refl ?_
  simpa [Expr.mapIds] using ⟨hc', ha', hb'⟩

theorem ExprReads.single {e : Expr} (hne : 0 < ts.length) (h : ExprReads (.operand level) ts e) :
    ExprReads (.binary level) ts e := by
  intro depth rest hdepth hrest
  obtain ⟨depth, rfl⟩ := Nat.exists_eq_add_of_lt (show 0 < depth by omega)
  rw [Nat.zero_add, Parse.chain]
  exact ⟨depth, by omega, (h depth rest (by omega) hrest).andThen⟩

/-- The operators of a level do not continue its operands. -/
theorem operator_spec (level : Level) :
    ∀ k ∈ operators level, k ∉ continuesOperand level ∧ k ≠ .eof := by
  cases level <;> decide

theorem node_eraseIds (level : Level) (op : Token) (a b : Expr) :
    (level.node op a b).eraseIds = level.node op a.eraseIds b.eraseIds := by
  cases level <;> rfl

theorem ExprReads.join {left right : List Token} {op : Token} {a b : Expr}
    (ha : ExprReads (.binary level) left a) (hop : op.kind ∈ operators level)
    (hb : ExprReads (.operand level) right b) :
    ExprReads (.binary level) (left ++ op :: right) (level.node op a b) := by
  intro depth rest hdepth hrest
  simp only [List.length_append, List.length_cons] at hdepth
  obtain ⟨hcont, heof⟩ := operator_spec level _ hop
  obtain ⟨depth', hd, hchain⟩ := ha depth (op :: right ++ rest) (by omega) hcont
  obtain ⟨depth', rfl⟩ := Nat.exists_eq_add_of_lt (show 0 < depth' by omega)
  refine ⟨depth', by simp only [List.length_append, List.length_cons]; omega, ?_⟩
  refine hchain.trans fun a' ha' => ?_
  rw [Nat.zero_add, chainRest]
  refine reads_accept heof ((isOperator_iff _ _).2 hop) ?_
  rw [← List.append_nil right]
  refine Reads.bind (hb depth' _ (by omega) hrest) fun b' hb' => .refl ?_
  rw [node_eraseIds, node_eraseIds, ha', hb']

theorem ExprReads.tighter {tighter : Level} {e : Expr} (hlevel : level.tighter = some tighter)
    (h : ExprReads (.binary tighter) ts e) : ExprReads (.operand level) ts e := by
  have hcont : continuesOperand level = operators tighter ++ continuesOperand tighter ∧
      operandDepth level = operandDepth tighter + 2 := by
    cases level <;> cases hlevel <;> exact ⟨rfl, rfl⟩
  intro depth rest hdepth hrest
  obtain ⟨depth, rfl⟩ := Nat.exists_eq_add_of_lt (show 0 < depth by omega)
  rw [Nat.zero_add, Parse.operand, hlevel]
  exact h.chain (by omega) (hcont.1 ▸ hrest)

theorem ExprReads.factorOperand {e : Expr} (h : ExprReads .unary ts e) :
    ExprReads (.operand .factor) ts e := by
  intro depth rest hdepth hrest
  simp only [operandDepth] at hdepth
  obtain ⟨depth, rfl⟩ := Nat.exists_eq_add_of_lt (show 0 < depth by omega)
  rw [Nat.zero_add, Parse.operand]
  exact h depth rest (by omega) hrest

theorem ExprReads.unary {op : Token} {e : Expr} (hop : op.kind ∈ unaryOperators)
    (h : ExprReads .unary ts e) : ExprReads .unary (op :: ts) (.unary op e) := by
  intro depth rest hdepth hrest
  simp only [List.length_cons] at hdepth
  obtain ⟨depth, rfl⟩ := Nat.exists_eq_add_of_lt (show 0 < depth by omega)
  have heof : op.kind ≠ .eof := (by decide : ∀ k ∈ unaryOperators, k ≠ .eof) _ hop
  rw [Nat.zero_add, Parse.unary]
  refine reads_accept heof ((isUnaryOperator_iff _).2 hop) ?_
  rw [← List.append_nil ts]
  refine Reads.bind (h depth _ (by omega) hrest) fun a ha => .refl ?_
  simpa [Expr.mapIds] using ha

theorem callRest_ends {depth : Nat} {e : Expr} (hdepth : 0 < depth)
    (h : (first rest).kind ∉ suffixes) : Reads (callRest depth e) [] rest (· = e) := by
  obtain ⟨depth, rfl⟩ := Nat.exists_eq_add_of_lt hdepth
  rw [Nat.zero_add, callRest]
  apply reads_peek
  rw [List.nil_append]
  split
  · simp_all [suffixes]
  · simp_all [suffixes]
  · simp_all [suffixes]
  · exact .refl rfl

theorem ExprReads.callUnary {t : Token} {e : Expr} (ht : startsPrimary t.kind = true)
    (h : ExprReads .call (t :: ts) e) : ExprReads .unary (t :: ts) e := by
  intro depth rest hdepth hrest
  simp only [List.length_cons] at hdepth
  obtain ⟨depth, rfl⟩ := Nat.exists_eq_add_of_lt (show 0 < depth by omega)
  obtain ⟨depth', hd, hcall⟩ := h depth rest (by simp only [List.length_cons]; omega)
  simp only [List.length_cons] at hd
  have hop : isUnaryOperator t.kind = false := by
    cases hk : t.kind <;> simp_all [startsPrimary, isUnaryOperator]
  rw [Nat.zero_add, Parse.unary]
  apply reads_refuse hop
  rw [← List.append_nil (t :: ts)]
  refine ReadsTo.trans hcall fun a ha => ?_
  exact (callRest_ends (by omega) hrest).mono fun b hb => hb ▸ ha

theorem ExprReads.primaryCall {e : Expr} (h : ExprReads .primary ts e) :
    ExprReads .call ts e := by
  intro depth rest hdepth
  exact ⟨depth, by omega, (h depth rest hdepth).andThen⟩

/-- One more suffix of a call. -/
theorem ExprReads.suffix {callee : List Token} {f e : Expr} (h : ExprReads .call callee f)
    (hne : ts ≠ [])
    (hstep : ∀ depth rest f', 16 * ts.length ≤ depth + 1 → f'.eraseIds = f.eraseIds →
      ReadsTo (callRest (depth + 1) f') (callRest depth) ts rest fun a => a.eraseIds = e.eraseIds) :
    ExprReads .call (callee ++ ts) e := by
  intro depth rest hdepth
  have hlen : 0 < ts.length := List.length_pos_iff.2 hne
  simp only [List.length_append] at hdepth
  obtain ⟨depth', hd, hcall⟩ := h depth (ts ++ rest) (by omega)
  obtain ⟨depth', rfl⟩ := Nat.exists_eq_add_of_lt (show 0 < depth' by omega)
  refine ⟨depth', by simp only [List.length_append]; omega, hcall.trans fun f' hf' => ?_⟩
  rw [Nat.zero_add]
  exact hstep depth' rest f' (by omega) hf'

/-- A closing token does not continue an expression. -/
theorem not_continuesExpr : ∀ k ∈ [TokenKind.rightParen, .rightBracket, .comma, .semicolon, .colon],
    k ∉ continuesExpr := by
  decide

/-- A token that starts an expression is none that the parser looks for in front of one. -/
theorem ne_of_startsExpr {k : TokenKind} (h : startsExpr k = true) :
    k ∉ [TokenKind.rightParen, .rightBracket, .rightBrace, .leftBrace, .semicolon, .eof, .kwVar,
      .kwElse, .kwClass, .kwReturn, .kwFunction, .kwIf, .kwFor, .kwWhile, .kwPrint] := by
  cases k <;> simp_all [startsExpr, startsPrimary, isUnaryOperator]

theorem ExprReads.call {callee args : List Token} {l r : Token} {f : Expr} {es : List Expr}
    (hf : ExprReads .call callee f) (hl : l.kind = .leftParen) (hargs : ExprReads .arguments args es)
    (hhead : ∃ t ts, args = t :: ts ∧ startsExpr t.kind = true)
    (hlen : es.length ≤ 255) (hr : r.kind = .rightParen) :
    ExprReads .call (callee ++ l :: args ++ [r]) (.call f r.line es) := by
  rw [List.append_assoc, List.cons_append]
  refine hf.suffix (by simp) fun depth rest f' hdepth hf' => ?_
  simp only [List.length_cons, List.length_append, List.length_nil] at hdepth
  have hread := hargs depth (r :: rest) (some maxArity) 0 (by omega) (by simp [hr])
    (not_continuesExpr _ (by simp [hr])) (by simpa [maxArity] using hlen)
  obtain ⟨t, ts, rfl, ht⟩ := hhead
  have ht := ne_of_startsExpr ht
  simp only [List.mem_cons, List.not_mem_nil, not_or] at ht
  rw [callRest]
  apply reads_peek
  simp only [List.cons_append, first_cons, hl]
  refine reads_skip (by simp [hl]) (reads_sees (by simp [ht]) ?_)
  simp only [List.cons_append, first_cons, ht, decide_false, Bool.false_eq_true, if_false]
  rw [← List.cons_append]
  refine Reads.bind hread fun as has => reads_expect hr (by simp) (.refl ?_)
  simpa [Expr.mapIds] using ⟨hf', has⟩

theorem ExprReads.callNone {callee : List Token} {l r : Token} {f : Expr}
    (hf : ExprReads .call callee f) (hl : l.kind = .leftParen) (hr : r.kind = .rightParen) :
    ExprReads .call (callee ++ [l, r]) (.call f r.line []) := by
  refine hf.suffix (by simp) fun depth rest f' hdepth hf' => ?_
  rw [callRest]
  apply reads_peek
  simp only [List.cons_append, first_cons, hl]
  refine reads_skip (by simp [hl]) (reads_sees (by simp [hr]) ?_)
  simp only [List.cons_append, first_cons, hr, decide_true, if_true]
  refine reads_expect hr (by simp) (.refl ?_)
  simpa [Expr.mapIds] using hf'

theorem ExprReads.get {object : List Token} {dot name : Token} {e : Expr}
    (h : ExprReads .call object e) (hdot : dot.kind = .dot) (hname : name.kind = .identifier) :
    ExprReads .call (object ++ [dot, name]) (.get e name.ident) := by
  refine h.suffix (by simp) fun depth rest f' hdepth hf' => ?_
  rw [callRest]
  apply reads_peek
  simp only [List.cons_append, first_cons, hdot]
  refine reads_skip (by simp [hdot]) (reads_expect hname (by simp) (.refl ?_))
  simpa [Expr.mapIds] using hf'

theorem ExprReads.index {target position : List Token} {l r : Token} {a i : Expr}
    (h : ExprReads .call target a) (hl : l.kind = .leftBracket)
    (hi : ExprReads .expression position i) (hr : r.kind = .rightBracket) :
    ExprReads .call (target ++ l :: position ++ [r]) (.index a r.line i) := by
  rw [List.append_assoc, List.cons_append]
  refine h.suffix (by simp) fun depth rest f' hdepth hf' => ?_
  simp only [List.length_cons, List.length_append, List.length_nil] at hdepth
  rw [callRest]
  apply reads_peek
  simp only [List.cons_append, first_cons, hl]
  refine reads_skip (by simp [hl]) ?_
  refine Reads.bind (hi depth _ (by omega) (not_continuesExpr _ (by simp [hr]))) fun p hp => ?_
  refine reads_expect hr (by simp) (.refl ?_)
  simpa [Expr.mapIds] using ⟨hf', hp⟩

/-- A primary expression of one token. -/
theorem ExprReads.token {t : Token} {e : Expr}
    (h : ∀ depth rest, Reads (Parse.primary (depth + 1)) [t] rest fun a => a.eraseIds = e.eraseIds) :
    ExprReads .primary [t] e := by
  intro depth rest hdepth
  simp only [List.length_singleton] at hdepth
  obtain ⟨depth, rfl⟩ := Nat.exists_eq_add_of_lt (show 0 < depth by omega)
  rw [Nat.zero_add]
  exact h depth rest

theorem ExprReads.group {inner : List Token} {l r : Token} {e : Expr} (hl : l.kind = .leftParen)
    (h : ExprReads .expression inner e) (hr : r.kind = .rightParen) :
    ExprReads .primary (l :: inner ++ [r]) (.group e) := by
  intro depth rest hdepth
  simp only [List.length_cons, List.length_append, List.length_nil] at hdepth
  obtain ⟨depth, rfl⟩ := Nat.exists_eq_add_of_lt (show 0 < depth by omega)
  rw [Nat.zero_add, Parse.primary]
  apply reads_peek
  simp only [List.cons_append, first_cons, hl]
  refine reads_skip (by simp [hl]) ?_
  refine Reads.bind (h depth _ (by omega) (not_continuesExpr _ (by simp [hr]))) fun a ha => ?_
  refine reads_expect hr (by simp) (.refl ?_)
  simpa [Expr.mapIds] using ha

theorem ExprReads.array {items : List Token} {l r : Token} {es : List Expr}
    (hl : l.kind = .leftBracket) (h : ExprReads .arguments items es)
    (hhead : ∃ t ts, items = t :: ts ∧ startsExpr t.kind = true) (hr : r.kind = .rightBracket) :
    ExprReads .primary (l :: items ++ [r]) (.array es) := by
  intro depth rest hdepth
  simp only [List.length_cons, List.length_append, List.length_nil] at hdepth
  obtain ⟨depth, rfl⟩ := Nat.exists_eq_add_of_lt (show 0 < depth by omega)
  have hread := h depth (r :: rest) none 0 (by omega) (by simp [hr])
    (not_continuesExpr _ (by simp [hr])) (by simp)
  obtain ⟨t, ts, rfl, ht⟩ := hhead
  have ht := ne_of_startsExpr ht
  simp only [List.mem_cons, List.not_mem_nil, not_or] at ht
  rw [Nat.zero_add, Parse.primary]
  apply reads_peek
  simp only [List.cons_append, first_cons, hl]
  refine reads_skip (by simp [hl]) (reads_sees (by simp [ht]) ?_)
  simp only [List.cons_append, first_cons, ht, decide_false, Bool.false_eq_true, if_false]
  rw [← List.cons_append]
  refine Reads.bind hread fun as has => reads_expect hr (by simp) (.refl ?_)
  simpa [Expr.mapIds] using has

theorem ExprReads.arrayNone {l r : Token} (hl : l.kind = .leftBracket) (hr : r.kind = .rightBracket) :
    ExprReads .primary [l, r] (.array []) := by
  intro depth rest hdepth
  simp only [List.length_cons, List.length_nil] at hdepth
  obtain ⟨depth, rfl⟩ := Nat.exists_eq_add_of_lt (show 0 < depth by omega)
  rw [Nat.zero_add, Parse.primary]
  apply reads_peek
  simp only [List.cons_append, first_cons, hl]
  refine reads_skip (by simp [hl]) (reads_sees (by simp [hr]) ?_)
  simp only [List.cons_append, first_cons, hr, decide_true, if_true]
  exact reads_expect hr (by simp) (.refl rfl)

theorem reads_unlessReported {β : Type} {c : Prop} [Decidable c] {m : Mistake} {y : Unit → Parse β}
    {E : β → Prop} (hc : ¬c) (hy : Reads (y ()) ts rest E) :
    Reads (if c then (do let t ← peek; let r ← report t m; y r) else y ()) ts rest E := by
  rwa [if_neg hc]

/-- A list that stays within its limit has room for its next argument. -/
theorem not_any_le_of_room {limit : Option Nat} {count k : Nat}
    (hlimit : ∀ n, limit = some n → count + (k + 1) ≤ n) : ¬limit.any (· ≤ count) = true := by
  cases limit with
  | none => exact Bool.false_ne_true
  | some n =>
    have hroom := hlimit n rfl
    intro hany
    rw [Option.any_some, decide_eq_true_iff] at hany
    omega

theorem ExprReads.one {e : Expr} (h : ExprReads .expression ts e) : ExprReads .arguments ts [e] := by
  intro depth rest limit count hdepth hcomma hrest hlimit
  obtain ⟨depth, rfl⟩ := Nat.exists_eq_add_of_lt (show 0 < depth by omega)
  rw [Nat.zero_add, Parse.arguments]
  apply reads_unlessReported (not_any_le_of_room hlimit)
  rw [← List.append_nil ts]
  refine Reads.bind (h depth _ (by omega) hrest) fun a ha => ?_
  refine reads_refuse (by simpa using hcomma) (.refl ?_)
  simpa [Expr.mapIdsAll] using ha

theorem ExprReads.more {others : List Token} {comma : Token} {e : Expr} {es : List Expr}
    (h : ExprReads .expression ts e) (hcomma : comma.kind = .comma)
    (hothers : ExprReads .arguments others es) :
    ExprReads .arguments (ts ++ comma :: others) (e :: es) := by
  intro depth rest limit count hdepth hend hrest hlimit
  simp only [List.length_append, List.length_cons] at hdepth hlimit
  obtain ⟨depth, rfl⟩ := Nat.exists_eq_add_of_lt (show 0 < depth by omega)
  rw [Nat.zero_add, Parse.arguments]
  apply reads_unlessReported (not_any_le_of_room hlimit)
  refine Reads.bind (h depth _ (by omega) (not_continuesExpr _ (by simp [hcomma]))) fun a ha => ?_
  refine reads_accept (by simp [hcomma]) (by simp [hcomma]) ?_
  rw [← List.append_nil others]
  refine Reads.bind (hothers depth _ limit (count + 1) (by omega) hend hrest ?_) fun as has =>
    .refl ?_
  · intro n hn
    have := hlimit n hn
    omega
  · simpa [Expr.mapIdsAll] using ⟨ha, has⟩

end ExprSteps

/-- **A derived expression is read as its tree, up to node ids.** -/
theorem DerivesExpr.reads {s : ExprSymbol} {ts : List Token} {e : s.Tree} (h : DerivesExpr s ts e) :
    ExprReads s ts e := by
  induction h with
  | plain _ ih => exact ih.plain
  | assign _ hop _ iht ihv => exact iht.assign hop ihv
  | set _ hop _ iht ihv => exact iht.set hop ihv
  | compound _ hop _ iht ihv => exact iht.compound hop ihv
  | step _ hop iht => exact iht.step hop
  | unconditional _ ih => exact ih.unconditional
  | conditional _ hq _ hc _ iht iha ihb => exact iht.conditional hq iha hc ihb
  | single h ih =>
      obtain ⟨t, l, rfl, -⟩ := h.head
      exact ih.single (by simp)
  | joinLogical _ hop _ iha ihb => exact iha.join hop ihb
  | @joinBinary level _ _ _ _ _ hlevel _ hop _ iha ihb =>
      have := iha.join hop ihb
      cases level <;> first | exact absurd rfl hlevel | exact this
  | logicalOperand _ ih | equalityOperand _ ih | comparisonOperand _ ih | termOperand _ ih =>
      exact ih.tighter rfl
  | factorOperand _ ih => exact ih.factorOperand
  | unary hop _ ih => exact ih.unary hop
  | callUnary h ih =>
      obtain ⟨t, l, rfl, ht⟩ := h.head
      exact ih.callUnary ht
  | primaryCall _ ih => exact ih.primaryCall
  | call _ hl h hlen hr ihf ih => exact ihf.call hl ih h.head hlen hr
  | callNone _ hl hr ihf => exact ihf.callNone hl hr
  | get _ hdot hname ih => exact ih.get hdot hname
  | index _ hl _ hr iht ihp => exact iht.index hl ihp hr
  | number ht | string ht | trueLit ht | falseLit ht | nullLit ht =>
      refine ExprReads.token fun depth rest => ?_
      rw [Parse.primary]
      apply reads_peek
      simp only [List.cons_append, first_cons, ht]
      exact reads_skip (by simp [ht]) (.refl rfl)
  | this ht | name ht =>
      refine ExprReads.token fun depth rest => ?_
      rw [Parse.primary]
      apply reads_peek
      simp only [List.cons_append, first_cons, ht]
      exact reads_skip (by simp [ht]) (reads_freshId fun id => .refl (by simp [Expr.mapIds]))
  | group hl _ hr ih => exact ih.group hl hr
  | array hl h hr ih => exact ih.array hl h.head hr
  | arrayNone hl hr => exact .arrayNone hl hr
  | one _ ih => exact ih.one
  | more _ hcomma _ ih ihs => exact ih.more hcomma ihs

end Scriptlet.Grammar
