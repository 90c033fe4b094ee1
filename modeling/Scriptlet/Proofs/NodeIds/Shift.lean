import Scriptlet.Tree.Parse
import Scriptlet.Proofs.Tree.Nodes

/-!
# Programs with later node ids

A program read with a counter that starts `k` later is the same program with all its node ids `k` greater.

* `Parse.Shifted k g x y` — what `y` does with a later counter is what `x` does, with `g` applied to the
  result.

Principal result: `parse_shift` — the outcome of parsing from a later counter, errors and next node id
included.
-/

set_option autoImplicit false

namespace Scriptlet

/-- A node id counted from `k` later on. -/
abbrev shiftId (k : Nat) (id : NodeId) : NodeId := id + k

/-- A state whose counter is further on. -/
def ParseState.shift (k : Nat) (st : ParseState) : ParseState := { st with nextId := st.nextId + k }

namespace Parse

variable {α β : Type} {k : Nat}

/-- The action `y` from a later counter does what `x` does; results are related by `g`. -/
def Shifted (k : Nat) (g : α → α) (x y : Parse α) : Prop :=
  ∀ st, y (st.shift k) = match x st with
    | .ok a st' => .ok (g a) (st'.shift k)
    | .error e st' => .error e (st'.shift k)

section Actions

variable {x y : Parse α} {f f' : α → Parse β} {g : α → α} {g' : β → β}

theorem Shifted.pure {a b : α} (h : b = g a) : Shifted k g (pure a) (pure b) := by
  subst h
  exact fun _ => rfl

theorem Shifted.bind (hx : Shifted k g x y) (hf : ∀ a, Shifted k g' (f a) (f' (g a))) :
    Shifted k g' (x >>= f) (y >>= f') := by
  intro st
  simp only [Bind.bind, EStateM.bind, hx st]
  cases hr : x st with
  | ok a st' => exact hf a st'
  | error e st' => rfl

theorem Shifted.map {c c' : α → β} (hx : Shifted k g x y) (hc : ∀ a, c' (g a) = g' (c a)) :
    Shifted k g' (c <$> x) (c' <$> y) := by
  intro st
  simp only [Functor.map, EStateM.map, hx st]
  cases x st with
  | ok a st' => simp only [hc]
  | error e st' => rfl

theorem shifted_exhausted : Shifted k g exhausted exhausted := fun _ => rfl

theorem shifted_fail {m : Mistake} : Shifted k g (fail m) (fail m) := fun _ => rfl

theorem shifted_peek : Shifted k id peek peek := fun _ => rfl

theorem shifted_sees (test : TokenKind → Bool) : Shifted k id (sees test) (sees test) := fun _ => rfl

theorem shifted_atEnd : Shifted k id atEnd atEnd := fun _ => rfl

theorem shifted_atBraceOrEnd : Shifted k id atBraceOrEnd atBraceOrEnd := fun _ => rfl

theorem advance_shift (st : ParseState) : (st.shift k).advance = st.advance.shift k := by
  unfold ParseState.advance
  show (if st.atEnd then _ else _) = _
  split <;> rfl

theorem shifted_skip : Shifted k id skip skip := fun st => congrArg _ (advance_shift st)

theorem shifted_accept? (test : TokenKind → Bool) : Shifted k id (accept? test) (accept? test) := by
  intro st
  unfold accept?
  show (if (!st.atEnd && test st.peek.kind) = true then _ else _) = _
  split
  · exact congrArg _ (advance_shift st)
  · rfl

theorem shifted_expect (kind : TokenKind) (m : Mistake) :
    Shifted k id (expect kind m) (expect kind m) := by
  unfold expect
  refine (shifted_accept? _).bind fun o => ?_
  cases o with
  | some t => exact .pure rfl
  | none => exact shifted_fail

theorem shifted_report (t : Token) (m : Mistake) : Shifted k id (report t m) (report t m) :=
  fun _ => rfl

theorem shifted_freshId : Shifted k (shiftId k) freshId freshId := by
  intro st
  simp only [freshId, ParseState.shift, shiftId, Nat.add_right_comm]

theorem shifted_unlessReported {c : Prop} [Decidable c] {m : Mistake} {z z' : Unit → Parse β}
    (hz : Shifted k g' (z ()) (z' ())) :
    Shifted k g' (if c then (do let t ← peek; let r ← report t m; z r) else z ())
      (if c then (do let t ← peek; let r ← report t m; z' r) else z' ()) := by
  split
  · exact shifted_peek.bind fun t => (shifted_report _ _).bind fun _ => hz
  · exact hz

end Actions

/-! ## Expressions -/

theorem shifted_assignTo (target : Expr) (equals : Token) (value : Expr) :
    Shifted k (Expr.mapIds (shiftId k)) (assignTo target equals value)
      (assignTo (target.mapIds (shiftId k)) equals (value.mapIds (shiftId k))) := by
  cases target with
  | var id name => exact shifted_freshId.bind fun id => .pure rfl
  | get object name => exact .pure rfl
  | lit | group | unary | binary | logical | ternary | assign | update | this | array | index | call
    | set => exact (shifted_report _ _).bind fun _ => .pure rfl

theorem shifted_updateOf (target : Expr) (op : Token) (value : Expr) :
    Shifted k (Expr.mapIds (shiftId k)) (updateOf target op value)
      (updateOf (target.mapIds (shiftId k)) op (value.mapIds (shiftId k))) := by
  cases target with
  | var id name => exact shifted_freshId.bind fun id => .pure rfl
  | lit | group | unary | binary | logical | ternary | assign | update | this | array | index | call
    | get | set => exact (shifted_report _ _).bind fun _ => .pure rfl

theorem shifted_parameters : ∀ depth count,
    Shifted k id (parameters depth count) (parameters depth count)
  | 0, _ => shifted_exhausted
  | depth + 1, count => by
    rw [parameters]
    refine shifted_unlessReported ((shifted_expect _ _).bind fun name => ?_)
    refine (shifted_accept? _).bind fun comma => ?_
    cases comma with
    | some _ => exact (shifted_parameters depth _).bind fun _ => .pure rfl
    | none => exact .pure rfl

/-- The expression parsers of a depth from a later counter. -/
structure ExprShifted (k depth : Nat) : Prop where
  expression : Shifted k (Expr.mapIds (shiftId k)) (expression depth) (expression depth)
  ternary : Shifted k (Expr.mapIds (shiftId k)) (ternary depth) (ternary depth)
  chain : ∀ level, Shifted k (Expr.mapIds (shiftId k)) (chain depth level) (chain depth level)
  chainRest : ∀ level left, Shifted k (Expr.mapIds (shiftId k)) (chainRest depth level left)
    (chainRest depth level (left.mapIds (shiftId k)))
  operand : ∀ level, Shifted k (Expr.mapIds (shiftId k)) (operand depth level) (operand depth level)
  unary : Shifted k (Expr.mapIds (shiftId k)) (unary depth) (unary depth)
  callRest : ∀ subject, Shifted k (Expr.mapIds (shiftId k)) (callRest depth subject)
    (callRest depth (subject.mapIds (shiftId k)))
  arguments : ∀ limit count, Shifted k (Expr.mapIdsAll (shiftId k)) (arguments depth limit count)
    (arguments depth limit count)
  primary : Shifted k (Expr.mapIds (shiftId k)) (primary depth) (primary depth)

section ExprSteps

variable {depth : Nat}

theorem ExprShifted.expression_succ (ih : ExprShifted k depth) :
    Shifted k (Expr.mapIds (shiftId k)) (Parse.expression (depth + 1))
      (Parse.expression (depth + 1)) := by
  rw [Parse.expression]
  refine ih.ternary.bind fun target => (shifted_accept? _).bind fun equals => ?_
  cases equals with
  | some equals => exact ih.expression.bind fun value => shifted_assignTo _ _ _
  | none =>
      refine (shifted_accept? _).bind fun op => ?_
      cases op with
      | some op => exact ih.expression.bind fun value => shifted_updateOf _ _ _
      | none =>
          refine (shifted_accept? _).bind fun op => ?_
          cases op with
          | some op => exact shifted_updateOf target op (.lit (.number 1.0))
          | none => exact .pure rfl

theorem ExprShifted.ternary_succ (ih : ExprShifted k depth) :
    Shifted k (Expr.mapIds (shiftId k)) (Parse.ternary (depth + 1)) (Parse.ternary (depth + 1)) := by
  rw [Parse.ternary]
  refine (ih.chain _).bind fun test => (shifted_accept? _).bind fun question => ?_
  cases question with
  | some question =>
      exact ih.expression.bind fun whenTrue => (shifted_expect _ _).bind fun colon =>
        ih.expression.bind fun whenFalse => .pure rfl
  | none => exact .pure rfl

theorem ExprShifted.chain_succ (ih : ExprShifted k depth) (level : Level) :
    Shifted k (Expr.mapIds (shiftId k)) (Parse.chain (depth + 1) level)
      (Parse.chain (depth + 1) level) := by
  rw [Parse.chain]
  exact (ih.operand level).bind fun left => ih.chainRest level left

theorem mapIds_node (f : NodeId → NodeId) (level : Level) (op : Token) (left right : Expr) :
    (level.node op left right).mapIds f = level.node op (left.mapIds f) (right.mapIds f) := by
  cases level <;> rfl

theorem ExprShifted.chainRest_succ (ih : ExprShifted k depth) (level : Level) (left : Expr) :
    Shifted k (Expr.mapIds (shiftId k)) (Parse.chainRest (depth + 1) level left)
      (Parse.chainRest (depth + 1) level (left.mapIds (shiftId k))) := by
  rw [Parse.chainRest, Parse.chainRest]
  refine (shifted_accept? _).bind fun op => ?_
  cases op with
  | some op =>
      refine (ih.operand level).bind fun right => ?_
      rw [← mapIds_node]
      exact ih.chainRest level _
  | none => exact .pure rfl

theorem ExprShifted.operand_succ (ih : ExprShifted k depth) (level : Level) :
    Shifted k (Expr.mapIds (shiftId k)) (Parse.operand (depth + 1) level)
      (Parse.operand (depth + 1) level) := by
  rw [Parse.operand]
  cases level.tighter with
  | some tighter => exact ih.chain tighter
  | none => exact ih.unary

theorem ExprShifted.unary_succ (ih : ExprShifted k depth) :
    Shifted k (Expr.mapIds (shiftId k)) (Parse.unary (depth + 1)) (Parse.unary (depth + 1)) := by
  rw [Parse.unary]
  refine (shifted_accept? _).bind fun op => ?_
  cases op with
  | some op => exact ih.unary.bind fun operand => .pure rfl
  | none => exact ih.primary.bind fun subject => ih.callRest subject

theorem ExprShifted.callRest_succ (ih : ExprShifted k depth) (subject : Expr) :
    Shifted k (Expr.mapIds (shiftId k)) (Parse.callRest (depth + 1) subject)
      (Parse.callRest (depth + 1) (subject.mapIds (shiftId k))) := by
  rw [Parse.callRest, Parse.callRest]
  refine shifted_peek.bind fun t => ?_
  dsimp only [id]
  split
  · refine shifted_skip.bind fun _ => (shifted_sees _).bind fun closed => ?_
    dsimp only [id]
    split
    · exact (shifted_expect _ _).bind fun paren => ih.callRest (.call subject paren.line [])
    · exact (ih.arguments _ _).bind fun args => (shifted_expect _ _).bind fun paren =>
        ih.callRest (.call subject paren.line args)
  · exact shifted_skip.bind fun _ => (shifted_expect _ _).bind fun name =>
      ih.callRest (.get subject name.ident)
  · exact shifted_skip.bind fun _ => ih.expression.bind fun position =>
      (shifted_expect _ _).bind fun bracket => ih.callRest (.index subject bracket.line position)
  · exact .pure rfl

theorem ExprShifted.arguments_succ (ih : ExprShifted k depth) (limit : Option Nat) (count : Nat) :
    Shifted k (Expr.mapIdsAll (shiftId k)) (Parse.arguments (depth + 1) limit count)
      (Parse.arguments (depth + 1) limit count) := by
  rw [Parse.arguments]
  refine shifted_unlessReported (ih.expression.bind fun first => ?_)
  refine (shifted_accept? _).bind fun comma => ?_
  cases comma with
  | some comma => exact (ih.arguments _ _).bind fun others => .pure rfl
  | none => exact .pure rfl

theorem ExprShifted.primary_succ (ih : ExprShifted k depth) :
    Shifted k (Expr.mapIds (shiftId k)) (Parse.primary (depth + 1)) (Parse.primary (depth + 1)) := by
  rw [Parse.primary]
  refine shifted_peek.bind fun t => ?_
  dsimp only [id]
  split
  · exact shifted_skip.bind fun _ => shifted_freshId.bind fun id => .pure rfl
  · exact shifted_skip.bind fun _ => .pure rfl
  · exact shifted_skip.bind fun _ => .pure rfl
  · exact shifted_skip.bind fun _ => .pure rfl
  · exact shifted_skip.bind fun _ => .pure rfl
  · exact shifted_skip.bind fun _ => .pure rfl
  · exact shifted_skip.bind fun _ => shifted_freshId.bind fun id => .pure rfl
  · exact shifted_skip.bind fun _ => ih.expression.bind fun inner =>
      (shifted_expect _ _).bind fun _ => .pure rfl
  · refine shifted_skip.bind fun _ => (shifted_sees _).bind fun closed => ?_
    dsimp only [id]
    split
    · exact (shifted_expect _ _).bind fun _ => .pure rfl
    · exact (ih.arguments _ _).bind fun items => (shifted_expect _ _).bind fun _ => .pure rfl
  · exact shifted_fail

end ExprSteps

theorem exprShifted (k : Nat) : ∀ depth, ExprShifted k depth
  | 0 => by
    constructor <;> intros <;> exact shifted_exhausted
  | depth + 1 =>
    let ih := exprShifted k depth
    ⟨ih.expression_succ, ih.ternary_succ, ih.chain_succ, ih.chainRest_succ, ih.operand_succ,
      ih.unary_succ, ih.callRest_succ, ih.arguments_succ, ih.primary_succ⟩

/-! ## Statements -/

theorem shifted_variableDecl (depth : Nat) :
    Shifted k (Stmt.mapIds (shiftId k)) (variableDecl depth) (variableDecl depth) := by
  unfold variableDecl
  refine (shifted_expect _ _).bind fun name => (shifted_accept? _).bind fun equals => ?_
  cases equals with
  | some equals =>
      have hinit : Shifted k (Option.map (Expr.mapIds (shiftId k))) (some <$> expression depth)
          (some <$> expression depth) := (exprShifted k depth).expression.map fun _ => rfl
      exact hinit.bind fun init => (shifted_expect _ _).bind fun _ => .pure rfl
  | none => exact (shifted_expect _ _).bind fun _ => .pure rfl

theorem shifted_expressionStmt (depth : Nat) :
    Shifted k (Stmt.mapIds (shiftId k)) (expressionStmt depth) (expressionStmt depth) := by
  unfold expressionStmt
  exact (exprShifted k depth).expression.bind fun e => (shifted_expect _ _).bind fun _ => .pure rfl

theorem shifted_expressionUnless (depth : Nat) (kind : TokenKind) :
    Shifted k (Option.map (Expr.mapIds (shiftId k))) (expressionUnless depth kind)
      (expressionUnless depth kind) := by
  unfold expressionUnless
  refine (shifted_sees _).bind fun found => ?_
  dsimp only [id]
  split
  · exact .pure rfl
  · exact (exprShifted k depth).expression.map fun _ => rfl

theorem shifted_forInit (depth : Nat) :
    Shifted k (Option.map (Stmt.mapIds (shiftId k))) (forInit depth) (forInit depth) := by
  unfold forInit
  refine shifted_peek.bind fun t => ?_
  dsimp only [id]
  split
  · exact shifted_skip.bind fun _ => .pure rfl
  · exact shifted_skip.bind fun _ => (shifted_variableDecl depth).map fun _ => rfl
  · exact (shifted_expressionStmt depth).map fun _ => rfl

/-- The statement parsers of a depth from a later counter. -/
structure StmtShifted (k depth : Nat) : Prop where
  declaration : Shifted k (Option.map (Stmt.mapIds (shiftId k))) (declaration depth)
    (declaration depth)
  declarationOrHalt : Shifted k (Stmt.mapIds (shiftId k)) (declarationOrHalt depth)
    (declarationOrHalt depth)
  statement : Shifted k (Stmt.mapIds (shiftId k)) (statement depth) (statement depth)
  classDecl : Shifted k (Stmt.mapIds (shiftId k)) (classDecl depth) (classDecl depth)
  methodList : Shifted k (FunctionDecl.mapIdsAll (shiftId k)) (methodList depth) (methodList depth)
  callable : ∀ kind, Shifted k (FunctionDecl.mapIds (shiftId k)) (callable depth kind)
    (callable depth kind)
  ifStmt : Shifted k (Stmt.mapIds (shiftId k)) (ifStmt depth) (ifStmt depth)
  forStmt : Shifted k (Stmt.mapIds (shiftId k)) (forStmt depth) (forStmt depth)
  whileStmt : Shifted k (Stmt.mapIds (shiftId k)) (whileStmt depth) (whileStmt depth)
  block : Shifted k (Stmt.mapIdsAll (shiftId k)) (block depth) (block depth)

section StmtSteps

variable {depth : Nat}

theorem StmtShifted.declaration_succ (ih : StmtShifted k depth) :
    Shifted k (Option.map (Stmt.mapIds (shiftId k))) (Parse.declaration (depth + 1))
      (Parse.declaration (depth + 1)) := by
  intro st
  rw [Parse.declaration]
  simp only [ih.declarationOrHalt st]
  cases Parse.declarationOrHalt depth st with
  | ok s st' => rfl
  | error halt st' =>
      cases halt with
      | mistake e => rfl
      | exhausted => rfl

theorem StmtShifted.declarationOrHalt_succ (ih : StmtShifted k depth) :
    Shifted k (Stmt.mapIds (shiftId k)) (Parse.declarationOrHalt (depth + 1))
      (Parse.declarationOrHalt (depth + 1)) := by
  rw [Parse.declarationOrHalt]
  refine shifted_peek.bind fun t => ?_
  dsimp only [id]
  split
  · exact shifted_skip.bind fun _ => shifted_variableDecl depth
  · exact ih.statement

theorem StmtShifted.statement_succ (ih : StmtShifted k depth) :
    Shifted k (Stmt.mapIds (shiftId k)) (Parse.statement (depth + 1))
      (Parse.statement (depth + 1)) := by
  rw [Parse.statement]
  refine shifted_peek.bind fun t => ?_
  dsimp only [id]
  split
  · exact shifted_skip.bind fun _ => ih.classDecl
  · refine shifted_skip.bind fun _ => ?_
    unfold returnStmt
    exact (shifted_expressionUnless _ _).bind fun value => (shifted_expect _ _).bind fun _ =>
      .pure rfl
  · exact shifted_skip.bind fun _ => (ih.callable _).map fun _ => rfl
  · exact shifted_skip.bind fun _ => ih.ifStmt
  · exact shifted_skip.bind fun _ => ih.forStmt
  · exact shifted_skip.bind fun _ => ih.whileStmt
  · refine shifted_skip.bind fun _ => ?_
    unfold printStmt
    exact (exprShifted k depth).expression.bind fun e => (shifted_expect _ _).bind fun _ => .pure rfl
  · exact shifted_skip.bind fun _ => ih.block.map fun _ => rfl
  · exact shifted_expressionStmt depth

theorem StmtShifted.classDecl_succ (ih : StmtShifted k depth) :
    Shifted k (Stmt.mapIds (shiftId k)) (Parse.classDecl (depth + 1))
      (Parse.classDecl (depth + 1)) := by
  rw [Parse.classDecl]
  exact (shifted_expect _ _).bind fun name => (shifted_expect _ _).bind fun _ =>
    ih.methodList.bind fun methods => (shifted_expect _ _).bind fun _ => .pure rfl

theorem StmtShifted.methodList_succ (ih : StmtShifted k depth) :
    Shifted k (FunctionDecl.mapIdsAll (shiftId k)) (Parse.methodList (depth + 1))
      (Parse.methodList (depth + 1)) := by
  rw [Parse.methodList]
  refine shifted_atBraceOrEnd.bind fun done => ?_
  dsimp only [id]
  split
  · exact .pure rfl
  · exact (ih.callable _).bind fun first => ih.methodList.bind fun others => .pure rfl

theorem StmtShifted.callable_succ (ih : StmtShifted k depth) (kind : DeclKind) :
    Shifted k (FunctionDecl.mapIds (shiftId k)) (Parse.callable (depth + 1) kind)
      (Parse.callable (depth + 1) kind) := by
  rw [Parse.callable]
  refine (shifted_expect _ _).bind fun name => (shifted_expect _ _).bind fun _ =>
    (shifted_sees _).bind fun closed => ?_
  dsimp only [id]
  split
  · exact (shifted_expect _ _).bind fun _ => (shifted_expect _ _).bind fun _ =>
      ih.block.bind fun body => .pure rfl
  · exact (shifted_parameters _ _).bind fun params => (shifted_expect _ _).bind fun _ =>
      (shifted_expect _ _).bind fun _ => ih.block.bind fun body => .pure rfl

theorem StmtShifted.ifStmt_succ (ih : StmtShifted k depth) :
    Shifted k (Stmt.mapIds (shiftId k)) (Parse.ifStmt (depth + 1)) (Parse.ifStmt (depth + 1)) := by
  rw [Parse.ifStmt]
  refine (shifted_expect _ _).bind fun _ => (exprShifted k depth).expression.bind fun test =>
    (shifted_expect _ _).bind fun _ => ih.statement.bind fun whenTrue =>
    (shifted_accept? _).bind fun orElse => ?_
  cases orElse with
  | some _ => exact ih.statement.bind fun whenFalse => .pure rfl
  | none => exact .pure rfl

theorem StmtShifted.forStmt_succ (ih : StmtShifted k depth) :
    Shifted k (Stmt.mapIds (shiftId k)) (Parse.forStmt (depth + 1)) (Parse.forStmt (depth + 1)) := by
  rw [Parse.forStmt]
  exact (shifted_expect _ _).bind fun _ => (shifted_forInit depth).bind fun init =>
    (shifted_expressionUnless _ _).bind fun test => (shifted_expect _ _).bind fun _ =>
    (shifted_expressionUnless _ _).bind fun step => (shifted_expect _ _).bind fun _ =>
    ih.statement.bind fun body => .pure (Stmt.mapIds_forLoop _ _ _ _ _).symm

theorem StmtShifted.whileStmt_succ (ih : StmtShifted k depth) :
    Shifted k (Stmt.mapIds (shiftId k)) (Parse.whileStmt (depth + 1))
      (Parse.whileStmt (depth + 1)) := by
  rw [Parse.whileStmt]
  exact (shifted_expect _ _).bind fun _ => (exprShifted k depth).expression.bind fun test =>
    (shifted_expect _ _).bind fun _ => ih.statement.bind fun body => .pure rfl

theorem mapIdsAll_declared (f : NodeId → NodeId) (first : Option Stmt) (others : List Stmt) :
    Stmt.mapIdsAll f (first.toList ++ others) =
      (first.map (Stmt.mapIds f)).toList ++ Stmt.mapIdsAll f others := by
  cases first <;> rfl

theorem StmtShifted.block_succ (ih : StmtShifted k depth) :
    Shifted k (Stmt.mapIdsAll (shiftId k)) (Parse.block (depth + 1)) (Parse.block (depth + 1)) := by
  rw [Parse.block]
  refine shifted_atBraceOrEnd.bind fun done => ?_
  dsimp only [id]
  split
  · exact (shifted_expect _ _).bind fun _ => .pure rfl
  · exact ih.declaration.bind fun first => ih.block.bind fun others =>
      .pure (mapIdsAll_declared _ _ _).symm

end StmtSteps

theorem stmtShifted (k : Nat) : ∀ depth, StmtShifted k depth
  | 0 => by
    constructor <;> intros <;> exact shifted_exhausted
  | depth + 1 =>
    let ih := stmtShifted k depth
    ⟨ih.declaration_succ, ih.declarationOrHalt_succ, ih.statement_succ, ih.classDecl_succ,
      ih.methodList_succ, ih.callable_succ, ih.ifStmt_succ, ih.forStmt_succ, ih.whileStmt_succ,
      ih.block_succ⟩

theorem shifted_declarations (k : Nat) : ∀ depth,
    Shifted k (Stmt.mapIdsAll (shiftId k)) (declarations depth) (declarations depth)
  | 0 => shifted_exhausted
  | depth + 1 => by
    rw [declarations]
    refine shifted_atEnd.bind fun done => ?_
    dsimp only [id]
    split
    · exact .pure rfl
    · exact (stmtShifted k depth).declaration.bind fun first =>
        (shifted_declarations k depth).bind fun others => .pure (mapIdsAll_declared _ _ _).symm

end Parse

/-- **Parsing from a later counter gives the same errors, or the same program with greater node ids.** -/
theorem parse_shift (firstId k : Nat) (tokens : List Token) :
    parse (firstId + k) tokens = ⟨(parse firstId tokens).program.map (Stmt.mapIdsAll (shiftId k)),
      (parse firstId tokens).nextId + k⟩ := by
  have h := Parse.shifted_declarations k (parseDepth tokens.length) ⟨tokens, firstId, []⟩
  unfold parse
  rw [show (⟨tokens, firstId + k, []⟩ : ParseState) = ParseState.shift k ⟨tokens, firstId, []⟩ from rfl, h]
  cases Parse.declarations (parseDepth tokens.length) ⟨tokens, firstId, []⟩ with
  | ok program st =>
      show (⟨if st.errors.isEmpty then .ok (Stmt.mapIdsAll (shiftId k) program) else .error st.errors,
        st.nextId + k⟩ : Parsed) = _
      simp only
      by_cases hempty : st.errors.isEmpty = true
      · rw [if_pos hempty, if_pos hempty]
        rfl
      · rw [if_neg hempty, if_neg hempty]
        rfl
  | error halt st => rfl

end Scriptlet
