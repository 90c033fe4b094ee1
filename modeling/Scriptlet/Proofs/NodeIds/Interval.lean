import Scriptlet.Tree.Parse
import Scriptlet.Proofs.Tree.Nodes

/-!
# Node ids of a parsed program

The parser numbers references from a counter, so the ids of a tree are pairwise different and lie between
the values of the counter before and after it was read.

* `Spans n ids n'` — the ids are pairwise different and lie in `n … n' - 1`.
* `Counts x Q` — the action `x` never turns the counter back, and when it ends well its result and the two
  values of the counter are related by `Q`.

Principal result: `parse_spans` — the references of a parsed program have pairwise different ids, none of
which was handed out before.
-/

set_option autoImplicit false

namespace Scriptlet

/-- The ids are pairwise different and lie in `n … n' - 1`. -/
structure Spans (n : Nat) (ids : List Nat) (n' : Nat) : Prop where
  le : n ≤ n'
  nodup : ids.Nodup
  bounds : ∀ id ∈ ids, n ≤ id ∧ id < n'

namespace Spans

variable {n n₁ n' : Nat} {ids ids' : List Nat}

theorem nil (h : n ≤ n') : Spans n [] n' := ⟨h, List.nodup_nil, by simp⟩

/-- Ids handed out one after the other. -/
theorem append (h : Spans n ids n₁) (h' : Spans n₁ ids' n') : Spans n (ids ++ ids') n' where
  le := Nat.le_trans h.le h'.le
  nodup := by
    refine List.nodup_append.mpr ⟨h.nodup, h'.nodup, fun a ha b hb hab => ?_⟩
    have := (h.bounds a ha).2
    have := (h'.bounds b hb).1
    omega
  bounds := by
    intro id hid
    have := h.le
    have := h'.le
    rcases List.mem_append.mp hid with hid | hid
    · have := h.bounds id hid; omega
    · have := h'.bounds id hid; omega

theorem perm (h : Spans n ids n') (hp : ids.Perm ids') : Spans n ids' n' :=
  ⟨h.le, hp.nodup_iff.mp h.nodup, fun id hid => h.bounds id (hp.mem_iff.mpr hid)⟩

theorem weaken (h : Spans n ids n₁) (hle : n₁ ≤ n') : Spans n ids n' :=
  ⟨Nat.le_trans h.le hle, h.nodup, fun id hid => ⟨(h.bounds id hid).1, by
    have := (h.bounds id hid).2; omega⟩⟩

/-- One more id from the counter. -/
theorem cons (h : Spans n ids n₁) : Spans n (n₁ :: ids) (n₁ + 1) :=
  have one : Spans n₁ [n₁] (n₁ + 1) := ⟨by omega, by simp, by simp⟩
  (h.append one).perm List.perm_append_comm

theorem lower (h : Spans n₁ ids n') (hle : n ≤ n₁) : Spans n ids n' :=
  ⟨Nat.le_trans hle h.le, h.nodup, fun id hid => ⟨by
    have := (h.bounds id hid).1; omega, (h.bounds id hid).2⟩⟩

end Spans

namespace Parse

variable {α β : Type}

/-- The counter never goes back, and a result is related to its values. -/
def Counts (x : Parse α) (Q : Nat → α → Nat → Prop) : Prop :=
  ∀ st, match x st with
    | .ok a st' => st.nextId ≤ st'.nextId ∧ Q st.nextId a st'.nextId
    | .error _ st' => st.nextId ≤ st'.nextId

section Actions

variable {x : Parse α} {f : α → Parse β} {Q : Nat → α → Nat → Prop}

theorem Counts.mono {Q' : Nat → α → Nat → Prop} (h : Counts x Q)
    (hQ : ∀ n a n', n ≤ n' → Q n a n' → Q' n a n') : Counts x Q' := by
  intro st
  have := h st
  split <;> simp_all

theorem Counts.pure {a : α} (h : ∀ n, Q n a n) : Counts (pure a) Q :=
  fun _ => ⟨Nat.le_refl _, h _⟩

theorem Counts.bind {Q' : Nat → β → Nat → Prop} (hx : Counts x Q)
    (hf : ∀ a, Counts (f a) fun n b n' => ∀ m, m ≤ n → Q m a n → Q' m b n') :
    Counts (x >>= f) Q' := by
  intro st
  have h₁ := hx st
  simp only [Bind.bind, EStateM.bind]
  cases hr : x st with
  | ok a st₁ =>
      rw [hr] at h₁
      have h₂ := hf a st₁
      simp only
      split <;> rename_i h₃ <;> rw [h₃] at h₂
      · exact ⟨Nat.le_trans h₁.1 h₂.1, h₂.2 _ h₁.1 h₁.2⟩
      · exact Nat.le_trans h₁.1 h₂
  | error e st₁ =>
      rw [hr] at h₁
      exact h₁

theorem Counts.map {g : α → β} {Q' : Nat → β → Nat → Prop} (hx : Counts x Q)
    (h : ∀ n a n', Q n a n' → Q' n (g a) n') : Counts (g <$> x) Q' := by
  intro st
  have h₁ := hx st
  simp only [Functor.map, EStateM.map]
  cases hr : x st with
  | ok a st₁ =>
      rw [hr] at h₁
      exact ⟨h₁.1, h _ _ _ h₁.2⟩
  | error e st₁ =>
      rw [hr] at h₁
      exact h₁

theorem counts_exhausted : Counts (exhausted (α := α)) Q := fun _ => Nat.le_refl _

theorem counts_fail {m : Mistake} : Counts (fail (α := α) m) Q := fun _ => Nat.le_refl _

theorem counts_peek : Counts peek fun n _ n' => n = n' := fun _ => ⟨Nat.le_refl _, rfl⟩

theorem counts_sees (test : TokenKind → Bool) : Counts (sees test) fun n _ n' => n = n' :=
  fun _ => ⟨Nat.le_refl _, rfl⟩

theorem counts_atBraceOrEnd : Counts atBraceOrEnd fun n _ n' => n = n' := fun _ => ⟨Nat.le_refl _, rfl⟩

theorem counts_atEnd : Counts atEnd fun n _ n' => n = n' := fun _ => ⟨Nat.le_refl _, rfl⟩

theorem advance_nextId (st : ParseState) : st.advance.nextId = st.nextId := by
  unfold ParseState.advance
  split <;> rfl

theorem counts_skip : Counts skip fun n _ n' => n = n' :=
  fun st => ⟨Nat.le_of_eq (advance_nextId st).symm, (advance_nextId st).symm⟩

theorem counts_accept? (test : TokenKind → Bool) : Counts (accept? test) fun n _ n' => n = n' := by
  intro st
  unfold accept?
  by_cases hc : (!st.atEnd && test st.peek.kind) = true
  · rw [if_pos hc]
    exact ⟨Nat.le_of_eq (advance_nextId st).symm, (advance_nextId st).symm⟩
  · rw [if_neg hc]
    exact ⟨Nat.le_refl _, rfl⟩

theorem counts_expect (kind : TokenKind) (m : Mistake) :
    Counts (expect kind m) fun n _ n' => n = n' := by
  unfold expect
  refine (counts_accept? _).bind fun o => ?_
  cases o with
  | some t =>
      refine .pure ?_
      rintro n m - rfl
      rfl
  | none => exact counts_fail

theorem counts_report (t : Token) (m : Mistake) : Counts (report t m) fun n _ n' => n = n' :=
  fun _ => ⟨Nat.le_refl _, rfl⟩

theorem counts_freshId : Counts freshId fun n id n' => id = n ∧ n' = n + 1 :=
  fun _ => ⟨Nat.le_succ _, rfl, rfl⟩

/-- After an action that leaves the counter alone. -/
theorem Counts.andThen {Q' : Nat → β → Nat → Prop} (hx : Counts x fun n _ n' => n = n')
    (hf : ∀ a, Counts (f a) Q') : Counts (x >>= f) Q' := by
  refine hx.bind fun a => (hf a).mono ?_
  rintro n b n' - hb m - rfl
  exact hb

theorem counts_unlessReported {c : Prop} [Decidable c] {m : Mistake} {y : Unit → Parse β}
    {Q' : Nat → β → Nat → Prop} (hy : Counts (y ()) Q') :
    Counts (if c then (do let t ← peek; let r ← report t m; y r) else y ()) Q' := by
  split
  · exact counts_peek.andThen fun t => (counts_report _ _).andThen fun _ => hy
  · exact hy

end Actions

/-! ## Expressions -/

theorem counts_assignTo (target : Expr) (equals : Token) (value : Expr) :
    Counts (assignTo target equals value) fun n e n' => ∀ m m',
      Spans m (Reference.ids target.references) m' → Spans m' (Reference.ids value.references) n →
      Spans m (Reference.ids e.references) n' := by
  unfold assignTo
  split
  · refine counts_freshId.bind fun id => .pure ?_
    rintro n m - ⟨rfl, rfl⟩ l l' ht hv
    exact (hv.lower ht.le).cons
  · refine .pure fun n m m' ht hv => ?_
    simpa [Expr.references] using ht.append hv
  · refine (counts_report _ _).andThen fun _ => .pure fun n m m' ht hv => ?_
    exact ht.weaken hv.le

theorem counts_updateOf (target : Expr) (op : Token) (value : Expr) :
    Counts (updateOf target op value) fun n e n' => ∀ m m',
      Spans m (Reference.ids target.references) m' → Spans m' (Reference.ids value.references) n →
      Spans m (Reference.ids e.references) n' := by
  unfold updateOf
  split
  · refine counts_freshId.bind fun id => .pure ?_
    rintro n m - ⟨rfl, rfl⟩ l l' ht hv
    exact (hv.lower ht.le).cons
  · refine (counts_report _ _).andThen fun _ => .pure fun n m m' ht hv => ?_
    exact ht.weaken hv.le

theorem counts_parameters : ∀ depth count, Counts (parameters depth count) fun n _ n' => n = n'
  | 0, _ => counts_exhausted
  | depth + 1, count => by
    rw [parameters]
    refine counts_unlessReported ((counts_expect _ _).andThen fun name => ?_)
    refine (counts_accept? _).andThen fun comma => ?_
    cases comma with
    | some _ => exact (counts_parameters depth _).andThen fun _ => .pure fun _ => rfl
    | none => exact .pure fun _ => rfl

/-- The expression parsers of a depth number their nodes from the counter. -/
structure ExprCounts (depth : Nat) : Prop where
  expression : Counts (expression depth) fun n e n' => Spans n (Reference.ids e.references) n'
  ternary : Counts (ternary depth) fun n e n' => Spans n (Reference.ids e.references) n'
  chain : ∀ level, Counts (chain depth level) fun n e n' => Spans n (Reference.ids e.references) n'
  chainRest : ∀ level left, Counts (chainRest depth level left) fun n e n' => ∀ m,
    Spans m (Reference.ids left.references) n → Spans m (Reference.ids e.references) n'
  operand : ∀ level, Counts (operand depth level) fun n e n' =>
    Spans n (Reference.ids e.references) n'
  unary : Counts (unary depth) fun n e n' => Spans n (Reference.ids e.references) n'
  callRest : ∀ subject, Counts (callRest depth subject) fun n e n' => ∀ m,
    Spans m (Reference.ids subject.references) n → Spans m (Reference.ids e.references) n'
  arguments : ∀ limit count, Counts (arguments depth limit count) fun n es n' =>
    Spans n (Reference.ids (Expr.referencesAll es)) n'
  primary : Counts (primary depth) fun n e n' => Spans n (Reference.ids e.references) n'

section ExprSteps

variable {depth : Nat}

theorem ExprCounts.expression_succ (ih : ExprCounts depth) :
    Counts (Parse.expression (depth + 1)) fun n e n' => Spans n (Reference.ids e.references) n' := by
  rw [Parse.expression]
  refine ih.ternary.bind fun target => (counts_accept? _).andThen fun equals => ?_
  cases equals with
  | some equals =>
      refine ih.expression.bind fun value => (counts_assignTo _ _ _).mono ?_
      intro n e n' _ h m _ hv l _ ht
      exact h l m ht hv
  | none =>
      refine (counts_accept? _).andThen fun op => ?_
      cases op with
      | some op =>
          refine ih.expression.bind fun value => (counts_updateOf _ _ _).mono ?_
          intro n e n' _ h m _ hv l _ ht
          exact h l m ht hv
      | none =>
          refine (counts_accept? _).andThen fun op => ?_
          cases op with
          | some op =>
              refine (counts_updateOf _ _ _).mono ?_
              intro n e n' _ h m hm ht
              exact h m n ht (.nil (Nat.le_refl n))
          | none => exact .pure fun n m _ ht => ht

theorem ExprCounts.ternary_succ (ih : ExprCounts depth) :
    Counts (Parse.ternary (depth + 1)) fun n e n' => Spans n (Reference.ids e.references) n' := by
  rw [Parse.ternary]
  refine (ih.chain _).bind fun test => (counts_accept? _).andThen fun question => ?_
  cases question with
  | some question =>
      refine ih.expression.bind fun whenTrue => (counts_expect _ _).andThen fun colon =>
        ih.expression.bind fun whenFalse => .pure ?_
      intro n m _ hb m₁ _ ha m₂ _ ht
      simpa [Expr.references] using ht.append (ha.append hb)
  | none => exact .pure fun n m _ ht => ht

theorem ExprCounts.chain_succ (ih : ExprCounts depth) (level : Level) :
    Counts (Parse.chain (depth + 1) level) fun n e n' => Spans n (Reference.ids e.references) n' := by
  rw [Parse.chain]
  refine (ih.operand level).bind fun left => (ih.chainRest level left).mono ?_
  intro n e n' _ h m _ hl
  exact h m hl

theorem references_node (level : Level) (op : Token) (left right : Expr) :
    (level.node op left right).references = left.references ++ right.references := by
  cases level <;> rfl

theorem ExprCounts.chainRest_succ (ih : ExprCounts depth) (level : Level) (left : Expr) :
    Counts (Parse.chainRest (depth + 1) level left) fun n e n' => ∀ m,
      Spans m (Reference.ids left.references) n → Spans m (Reference.ids e.references) n' := by
  rw [Parse.chainRest]
  refine (counts_accept? _).andThen fun op => ?_
  cases op with
  | some op =>
      refine (ih.operand level).bind fun right => (ih.chainRest level _).mono ?_
      intro n e n' _ h m _ hr l hl
      exact h l (by simpa [references_node] using hl.append hr)
  | none => exact .pure fun n m hl => hl

theorem ExprCounts.operand_succ (ih : ExprCounts depth) (level : Level) :
    Counts (Parse.operand (depth + 1) level) fun n e n' => Spans n (Reference.ids e.references) n' := by
  rw [Parse.operand]
  cases level.tighter with
  | some tighter => exact ih.chain tighter
  | none => exact ih.unary

theorem ExprCounts.unary_succ (ih : ExprCounts depth) :
    Counts (Parse.unary (depth + 1)) fun n e n' => Spans n (Reference.ids e.references) n' := by
  rw [Parse.unary]
  refine (counts_accept? _).andThen fun op => ?_
  cases op with
  | some op => exact ih.unary.bind fun operand => .pure fun n m _ h => h
  | none =>
      refine ih.primary.bind fun subject => (ih.callRest subject).mono ?_
      intro n e n' _ h m _ hs
      exact h m hs

theorem ExprCounts.callRest_succ (ih : ExprCounts depth) (subject : Expr) :
    Counts (Parse.callRest (depth + 1) subject) fun n e n' => ∀ m,
      Spans m (Reference.ids subject.references) n → Spans m (Reference.ids e.references) n' := by
  rw [Parse.callRest]
  refine counts_peek.andThen fun t => ?_
  split
  · refine counts_skip.andThen fun _ => (counts_sees _).andThen fun closed => ?_
    split
    · refine (counts_expect _ _).andThen fun paren => (ih.callRest _).mono ?_
      intro n e n' _ h m hs
      exact h m (by simpa [Expr.references, Expr.referencesAll] using hs)
    · refine (ih.arguments _ _).bind fun args => (counts_expect _ _).andThen fun paren =>
        (ih.callRest _).mono ?_
      intro n e n' _ h m _ ha l hs
      exact h l (by simpa [Expr.references] using hs.append ha)
  · refine counts_skip.andThen fun _ => (counts_expect _ _).andThen fun name =>
      (ih.callRest _).mono ?_
    intro n e n' _ h m hs
    exact h m hs
  · refine counts_skip.andThen fun _ => ih.expression.bind fun position =>
      (counts_expect _ _).andThen fun bracket => (ih.callRest _).mono ?_
    intro n e n' _ h m _ hp l hs
    exact h l (by simpa [Expr.references] using hs.append hp)
  · exact .pure fun n m hs => hs

theorem ExprCounts.arguments_succ (ih : ExprCounts depth) (limit : Option Nat) (count : Nat) :
    Counts (Parse.arguments (depth + 1) limit count) fun n es n' =>
      Spans n (Reference.ids (Expr.referencesAll es)) n' := by
  rw [Parse.arguments]
  refine counts_unlessReported (ih.expression.bind fun first => ?_)
  refine (counts_accept? _).andThen fun comma => ?_
  cases comma with
  | some comma =>
      refine (ih.arguments _ _).bind fun others => .pure fun n m _ ho l _ hf => ?_
      simpa [Expr.referencesAll] using hf.append ho
  | none =>
      refine .pure fun n m _ hf => ?_
      simpa [Expr.referencesAll] using hf

theorem ExprCounts.primary_succ (ih : ExprCounts depth) :
    Counts (Parse.primary (depth + 1)) fun n e n' => Spans n (Reference.ids e.references) n' := by
  rw [Parse.primary]
  refine counts_peek.andThen fun t => ?_
  split
  · refine counts_skip.andThen fun _ => counts_freshId.bind fun id => .pure ?_
    rintro n m - ⟨rfl, rfl⟩
    exact (Spans.nil (Nat.le_refl _)).cons
  · exact counts_skip.andThen fun _ => .pure fun n => .nil (Nat.le_refl n)
  · exact counts_skip.andThen fun _ => .pure fun n => .nil (Nat.le_refl n)
  · exact counts_skip.andThen fun _ => .pure fun n => .nil (Nat.le_refl n)
  · exact counts_skip.andThen fun _ => .pure fun n => .nil (Nat.le_refl n)
  · exact counts_skip.andThen fun _ => .pure fun n => .nil (Nat.le_refl n)
  · refine counts_skip.andThen fun _ => counts_freshId.bind fun id => .pure ?_
    rintro n m - ⟨rfl, rfl⟩
    exact (Spans.nil (Nat.le_refl _)).cons
  · exact counts_skip.andThen fun _ => ih.expression.bind fun inner =>
      (counts_expect _ _).andThen fun _ => .pure fun n m _ h => h
  · refine counts_skip.andThen fun _ => (counts_sees _).andThen fun closed => ?_
    split
    · exact (counts_expect _ _).andThen fun _ => .pure fun n => .nil (Nat.le_refl n)
    · exact (ih.arguments _ _).bind fun items => (counts_expect _ _).andThen fun _ =>
        .pure fun n m _ h => h
  · exact counts_fail

end ExprSteps

theorem exprCounts : ∀ depth, ExprCounts depth
  | 0 => by
    constructor <;> intros <;> exact counts_exhausted
  | depth + 1 =>
    let ih := exprCounts depth
    ⟨ih.expression_succ, ih.ternary_succ, ih.chain_succ, ih.chainRest_succ, ih.operand_succ,
      ih.unary_succ, ih.callRest_succ, ih.arguments_succ, ih.primary_succ⟩

/-! ## Statements -/

theorem counts_variableDecl (depth : Nat) :
    Counts (variableDecl depth) fun n s n' => Spans n (Reference.ids s.references) n' := by
  unfold variableDecl
  refine (counts_expect _ _).andThen fun name => (counts_accept? _).andThen fun equals => ?_
  cases equals with
  | some equals =>
      have hinit : Counts (some <$> expression depth) fun n o n' =>
          Spans n (Reference.ids (Expr.referencesOpt o)) n' :=
        (exprCounts depth).expression.map fun _ _ _ h => h
      exact hinit.bind fun init => (counts_expect _ _).andThen fun _ => .pure fun n m _ h => h
  | none => exact (counts_expect _ _).andThen fun _ => .pure fun n => .nil (Nat.le_refl n)

theorem counts_expressionStmt (depth : Nat) :
    Counts (expressionStmt depth) fun n s n' => Spans n (Reference.ids s.references) n' := by
  unfold expressionStmt
  exact (exprCounts depth).expression.bind fun e => (counts_expect _ _).andThen fun _ =>
    .pure fun n m _ h => h

theorem counts_expressionUnless (depth : Nat) (kind : TokenKind) :
    Counts (expressionUnless depth kind) fun n o n' =>
      Spans n (Reference.ids (Expr.referencesOpt o)) n' := by
  unfold expressionUnless
  refine (counts_sees _).andThen fun found => ?_
  split
  · exact .pure fun n => .nil (Nat.le_refl n)
  · exact (exprCounts depth).expression.map fun _ _ _ h => h

theorem counts_forInit (depth : Nat) : Counts (forInit depth) fun n o n' =>
    Spans n (Reference.ids (Stmt.referencesAll o.toList)) n' := by
  unfold forInit
  refine counts_peek.andThen fun t => ?_
  split
  · exact counts_skip.andThen fun _ => .pure fun n => .nil (Nat.le_refl n)
  · refine counts_skip.andThen fun _ => (counts_variableDecl depth).map fun _ _ _ h => ?_
    simpa [Stmt.referencesAll] using h
  · refine (counts_expressionStmt depth).map fun _ _ _ h => ?_
    simpa [Stmt.referencesAll] using h

/-- The statement parsers of a depth number their nodes from the counter. -/
structure StmtCounts (depth : Nat) : Prop where
  declaration : Counts (declaration depth) fun n o n' =>
    Spans n (Reference.ids (Stmt.referencesAll o.toList)) n'
  declarationOrHalt : Counts (declarationOrHalt depth) fun n s n' =>
    Spans n (Reference.ids s.references) n'
  statement : Counts (statement depth) fun n s n' => Spans n (Reference.ids s.references) n'
  classDecl : Counts (classDecl depth) fun n s n' => Spans n (Reference.ids s.references) n'
  methodList : Counts (methodList depth) fun n ds n' =>
    Spans n (Reference.ids (FunctionDecl.referencesAll ds)) n'
  callable : ∀ kind, Counts (callable depth kind) fun n d n' =>
    Spans n (Reference.ids d.references) n'
  ifStmt : Counts (ifStmt depth) fun n s n' => Spans n (Reference.ids s.references) n'
  forStmt : Counts (forStmt depth) fun n s n' => Spans n (Reference.ids s.references) n'
  whileStmt : Counts (whileStmt depth) fun n s n' => Spans n (Reference.ids s.references) n'
  block : Counts (block depth) fun n body n' =>
    Spans n (Reference.ids (Stmt.referencesAll body)) n'

section StmtSteps

variable {depth : Nat}

theorem StmtCounts.declaration_succ (ih : StmtCounts depth) :
    Counts (Parse.declaration (depth + 1)) fun n o n' =>
      Spans n (Reference.ids (Stmt.referencesAll o.toList)) n' := by
  intro st
  have h := ih.declarationOrHalt st
  rw [Parse.declaration]
  simp only
  cases hr : Parse.declarationOrHalt depth st with
  | ok s st' =>
      rw [hr] at h
      exact ⟨h.1, by simpa [Stmt.referencesAll] using h.2⟩
  | error halt st' =>
      rw [hr] at h
      cases halt with
      | mistake e => exact ⟨h, .nil h⟩
      | exhausted => exact h

theorem StmtCounts.declarationOrHalt_succ (ih : StmtCounts depth) :
    Counts (Parse.declarationOrHalt (depth + 1)) fun n s n' =>
      Spans n (Reference.ids s.references) n' := by
  rw [Parse.declarationOrHalt]
  refine counts_peek.andThen fun t => ?_
  split
  · exact counts_skip.andThen fun _ => counts_variableDecl depth
  · exact ih.statement

theorem StmtCounts.statement_succ (ih : StmtCounts depth) :
    Counts (Parse.statement (depth + 1)) fun n s n' => Spans n (Reference.ids s.references) n' := by
  rw [Parse.statement]
  refine counts_peek.andThen fun t => ?_
  split
  · exact counts_skip.andThen fun _ => ih.classDecl
  · refine counts_skip.andThen fun _ => ?_
    unfold returnStmt
    exact (counts_expressionUnless _ _).bind fun value => (counts_expect _ _).andThen fun _ =>
      .pure fun n m _ h => h
  · exact counts_skip.andThen fun _ => (ih.callable _).map fun _ _ _ h => h
  · exact counts_skip.andThen fun _ => ih.ifStmt
  · exact counts_skip.andThen fun _ => ih.forStmt
  · exact counts_skip.andThen fun _ => ih.whileStmt
  · refine counts_skip.andThen fun _ => ?_
    unfold printStmt
    exact (exprCounts depth).expression.bind fun e => (counts_expect _ _).andThen fun _ =>
      .pure fun n m _ h => h
  · exact counts_skip.andThen fun _ => ih.block.map fun _ _ _ h => h
  · exact counts_expressionStmt depth

theorem StmtCounts.classDecl_succ (ih : StmtCounts depth) :
    Counts (Parse.classDecl (depth + 1)) fun n s n' => Spans n (Reference.ids s.references) n' := by
  rw [Parse.classDecl]
  exact (counts_expect _ _).andThen fun name => (counts_expect _ _).andThen fun _ =>
    ih.methodList.bind fun methods => (counts_expect _ _).andThen fun _ => .pure fun n m _ h => h

theorem StmtCounts.methodList_succ (ih : StmtCounts depth) :
    Counts (Parse.methodList (depth + 1)) fun n ds n' =>
      Spans n (Reference.ids (FunctionDecl.referencesAll ds)) n' := by
  rw [Parse.methodList]
  refine counts_atBraceOrEnd.andThen fun done => ?_
  split
  · exact .pure fun n => .nil (Nat.le_refl n)
  · refine (ih.callable _).bind fun first => ih.methodList.bind fun others =>
      .pure fun n m _ ho l _ hf => ?_
    simpa [FunctionDecl.referencesAll] using hf.append ho

theorem StmtCounts.callable_succ (ih : StmtCounts depth) (kind : DeclKind) :
    Counts (Parse.callable (depth + 1) kind) fun n d n' => Spans n (Reference.ids d.references) n' := by
  rw [Parse.callable]
  refine (counts_expect _ _).andThen fun name => (counts_expect _ _).andThen fun _ =>
    (counts_sees _).andThen fun closed => ?_
  split
  · exact (counts_expect _ _).andThen fun _ => (counts_expect _ _).andThen fun _ =>
      ih.block.bind fun body => .pure fun n m _ h => h
  · exact (counts_parameters _ _).andThen fun params => (counts_expect _ _).andThen fun _ =>
      (counts_expect _ _).andThen fun _ => ih.block.bind fun body => .pure fun n m _ h => h

theorem StmtCounts.ifStmt_succ (ih : StmtCounts depth) :
    Counts (Parse.ifStmt (depth + 1)) fun n s n' => Spans n (Reference.ids s.references) n' := by
  rw [Parse.ifStmt]
  refine (counts_expect _ _).andThen fun _ => (exprCounts depth).expression.bind fun test =>
    (counts_expect _ _).andThen fun _ => ih.statement.bind fun whenTrue =>
    (counts_accept? _).andThen fun orElse => ?_
  cases orElse with
  | some _ =>
      refine ih.statement.bind fun whenFalse => .pure fun n m _ hb l _ ha k _ ht => ?_
      simpa [Stmt.references] using ht.append (ha.append hb)
  | none =>
      refine .pure fun n m _ ha k _ ht => ?_
      simpa [Stmt.references] using ht.append ha

theorem StmtCounts.forStmt_succ (ih : StmtCounts depth) :
    Counts (Parse.forStmt (depth + 1)) fun n s n' => Spans n (Reference.ids s.references) n' := by
  rw [Parse.forStmt]
  refine (counts_expect _ _).andThen fun _ => (counts_forInit depth).bind fun init =>
    (counts_expressionUnless _ _).bind fun test => (counts_expect _ _).andThen fun _ =>
    (counts_expressionUnless _ _).bind fun step => (counts_expect _ _).andThen fun _ =>
    ih.statement.bind fun body => .pure ?_
  intro n m₃ _ hb m₂ _ he m₁ _ hc m₀ _ hi
  rw [Stmt.references_forLoop]
  simp only [Reference.ids_append]
  -- the step is read before the body and stands after it in the tree
  refine (hi.append (hc.append (he.append hb))).perm ?_
  exact (List.perm_append_comm.append_left _).append_left _

theorem StmtCounts.whileStmt_succ (ih : StmtCounts depth) :
    Counts (Parse.whileStmt (depth + 1)) fun n s n' => Spans n (Reference.ids s.references) n' := by
  rw [Parse.whileStmt]
  refine (counts_expect _ _).andThen fun _ => (exprCounts depth).expression.bind fun test =>
    (counts_expect _ _).andThen fun _ => ih.statement.bind fun body =>
    .pure fun n m _ hb l _ ht => ?_
  simpa [Stmt.references] using ht.append hb

theorem StmtCounts.block_succ (ih : StmtCounts depth) :
    Counts (Parse.block (depth + 1)) fun n body n' =>
      Spans n (Reference.ids (Stmt.referencesAll body)) n' := by
  rw [Parse.block]
  refine counts_atBraceOrEnd.andThen fun done => ?_
  split
  · exact (counts_expect _ _).andThen fun _ => .pure fun n => .nil (Nat.le_refl n)
  · refine ih.declaration.bind fun first => ih.block.bind fun others =>
      .pure fun n m _ ho l _ hf => ?_
    simpa using hf.append ho

end StmtSteps

theorem stmtCounts : ∀ depth, StmtCounts depth
  | 0 => by
    constructor <;> intros <;> exact counts_exhausted
  | depth + 1 =>
    let ih := stmtCounts depth
    ⟨ih.declaration_succ, ih.declarationOrHalt_succ, ih.statement_succ, ih.classDecl_succ,
      ih.methodList_succ, ih.callable_succ, ih.ifStmt_succ, ih.forStmt_succ, ih.whileStmt_succ,
      ih.block_succ⟩

theorem counts_declarations : ∀ depth, Counts (declarations depth) fun n p n' =>
    Spans n (Reference.ids (Stmt.referencesAll p)) n'
  | 0 => counts_exhausted
  | depth + 1 => by
    rw [declarations]
    refine counts_atEnd.andThen fun done => ?_
    split
    · exact .pure fun n => .nil (Nat.le_refl n)
    · refine (stmtCounts depth).declaration.bind fun first =>
        (counts_declarations depth).bind fun others => .pure fun n m _ ho l _ hf => ?_
      simpa using hf.append ho

end Parse

/-- Parsing never turns the counter of node ids back. -/
theorem le_parse_nextId (firstId : NodeId) (tokens : List Token) :
    firstId ≤ (parse firstId tokens).nextId := by
  have h := Parse.counts_declarations (parseDepth tokens.length) ⟨tokens, firstId, []⟩
  unfold parse
  split <;> rename_i hr <;> rw [hr] at h
  · exact h.1
  · exact h

/-- **The references of a parsed program have pairwise different new ids.** -/
theorem parse_spans {firstId : NodeId} {tokens : List Token} {p : Program}
    (h : (parse firstId tokens).program = .ok p) :
    Spans firstId (Reference.ids (Stmt.referencesAll p)) (parse firstId tokens).nextId := by
  have hc := Parse.counts_declarations (parseDepth tokens.length) ⟨tokens, firstId, []⟩
  unfold parse at h ⊢
  split at h <;> rename_i hr <;> rw [hr] at hc
  · simp only at h
    split at h
    · cases h
      exact hc.2
    · cases h
  · cases h

end Scriptlet
