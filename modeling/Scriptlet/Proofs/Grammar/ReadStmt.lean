import Scriptlet.Proofs.Grammar.ReadExpr

/-!
# What is in the grammar is read: statements

`StmtReads` — a derived statement is read, as the derived tree up to node ids, in front of any token
that cannot continue it: only an `else` after an open `if` can.

Principal results: `DerivesStmt.reads` — every phrase derived with each `else` at its nearest `if` is
read; `program_reads` — so is every program.
-/

set_option autoImplicit false

namespace Scriptlet.Grammar

open Parse

/-! ## First tokens -/

/-- How the tokens of a phrase start. -/
def StmtSymbol.Starts : StmtSymbol → List Token → Prop
  | .declaration _, ts => ∃ t l, ts = t :: l ∧ t.kind ∉ [TokenKind.rightBrace, .kwElse, .eof]
  | .statement _, ts => ∃ t l, ts = t :: l ∧ t.kind ∉ [TokenKind.kwVar, .rightBrace, .kwElse, .eof]
  | .callable, ts => ∃ t l, ts = t :: l ∧ t.kind = .identifier
  | _, _ => True

theorem DerivesStmt.head {nearest : Bool} {s : StmtSymbol} {ts : List Token} {t : s.Tree}
    (h : DerivesStmt nearest s ts t) : s.Starts ts := by
  induction h with
  | noDeclaration | declarations | noCallable | callables => trivial
  | «variable» hk _ => exact ⟨_, _, rfl, by simp [hk]⟩
  | statement _ ih =>
      obtain ⟨t, l, rfl, ht⟩ := ih
      exact ⟨t, l, rfl, by simp_all⟩
  | classDecl hk | function hk | ret hk | ifThen hk | ifElse hk | forLoop hk | whileLoop hk
  | print hk | block hk => exact ⟨_, _, rfl, by simp [hk]⟩
  | callable hname => exact ⟨_, _, rfl, hname⟩
  | expr h _ =>
      obtain ⟨t, l, rfl, ht⟩ := h.head
      have ht := ne_of_startsExpr ht
      simp only [List.mem_cons, List.not_mem_nil, not_or] at ht
      exact ⟨t, _, rfl, by simp [ht]⟩

/-! ## Parts of statements -/

theorem expression_reads {ts : List Token} {e : Expr} (h : DerivesExpr .expression ts e)
    {depth : Nat} {rest : List Token} (hdepth : 16 * ts.length + 13 ≤ depth)
    (hrest : (first rest).kind ∈ [TokenKind.rightParen, .rightBracket, .comma, .semicolon, .colon]) :
    Reads (expression depth) ts rest fun a => a.eraseIds = e.eraseIds :=
  h.reads depth rest hdepth (not_continuesExpr _ hrest)

theorem Variable.reads {ts : List Token} {s : Stmt} (h : Variable ts s) {depth : Nat}
    {rest : List Token} (hdepth : 16 * ts.length ≤ depth) :
    Reads (variableDecl depth) ts rest fun a => a.eraseIds = s.eraseIds := by
  unfold variableDecl
  cases h with
  | bare hname hsemi =>
      refine reads_expect hname (by simp) (reads_refuse (by simp [hsemi]) ?_)
      exact reads_expect hsemi (by simp) (.refl rfl)
  | init hname hequal he hsemi =>
      simp only [List.length_cons, List.length_append, List.length_nil] at hdepth
      refine reads_expect hname (by simp) (reads_accept (by simp [hequal]) (by simp [hequal]) ?_)
      refine Reads.bind ((expression_reads he (by omega) (by simp [hsemi])).map
        (E := fun o => ∃ a, o = some a ∧ a.eraseIds = _) fun a ha => ⟨a, rfl, ha⟩) ?_
      rintro o ⟨a, rfl, ha⟩
      refine reads_expect hsemi (by simp) (.refl ?_)
      simpa [Stmt.mapIds] using ha

theorem Clause.reads {ts : List Token} {o : Option Expr} (h : Clause ts o) {depth : Nat}
    {kind : TokenKind} {t : Token} {rest : List Token} (ht : t.kind = kind)
    (hkind : kind = .semicolon ∨ kind = .rightParen) (hdepth : 16 * ts.length + 13 ≤ depth) :
    Reads (expressionUnless depth kind) ts (t :: rest)
      fun a => a.map Expr.eraseIds = o.map Expr.eraseIds := by
  have heof : kind ≠ .eof := by
    rintro rfl; simp at hkind
  unfold expressionUnless
  cases h with
  | none =>
      refine reads_sees (by simpa [ht]) ?_
      simp only [List.nil_append, first_cons, ht, decide_true, if_true]
      exact .refl rfl
  | some he =>
      have hread : Reads (expression depth) ts (t :: rest) _ := expression_reads he hdepth
        (by rcases hkind with rfl | rfl <;> simp [ht])
      obtain ⟨t₁, l, rfl, hstart⟩ := he.head
      have hstart := ne_of_startsExpr hstart
      have hne : t₁.kind ≠ kind := by
        rintro rfl; simp_all
      simp only [List.mem_cons, List.not_mem_nil, not_or] at hstart
      refine reads_sees (by simp [hstart]) ?_
      simp only [List.cons_append, first_cons, hne, decide_false, Bool.false_eq_true, if_false]
      exact hread.map fun a ha => by simpa using ha

theorem expressionStmt_reads {ts : List Token} {semi : Token} {e : Expr}
    (h : DerivesExpr .expression ts e) (hsemi : semi.kind = .semicolon) {depth : Nat}
    {rest : List Token} (hdepth : 16 * ts.length + 13 ≤ depth) :
    Reads (expressionStmt depth) (ts ++ [semi]) rest
      fun a => a.eraseIds = (Stmt.expr e).eraseIds := by
  unfold expressionStmt
  refine Reads.bind (expression_reads h hdepth (by simp [hsemi])) fun a ha => ?_
  refine reads_expect hsemi (by simp) (.refl ?_)
  simpa [Stmt.mapIds] using ha

theorem ForInit.reads {ts : List Token} {o : Option Stmt} (h : ForInit ts o) {depth : Nat}
    {rest : List Token} (hdepth : 16 * ts.length ≤ depth) :
    Reads (forInit depth) ts rest fun a => a.map Stmt.eraseIds = o.map Stmt.eraseIds := by
  unfold forInit
  apply reads_peek
  cases h with
  | none hsemi =>
      simp only [List.cons_append, first_cons, hsemi]
      exact reads_skip (by simp [hsemi]) (.refl rfl)
  | var hkey hvar =>
      simp only [List.length_cons] at hdepth
      simp only [List.cons_append, first_cons, hkey]
      refine reads_skip (by simp [hkey]) ((hvar.reads (by omega)).map fun a ha => ?_)
      simpa using ha
  | expr he hsemi =>
      simp only [List.length_append, List.length_singleton] at hdepth
      have hread : Reads (expressionStmt depth) _ rest _ := expressionStmt_reads he hsemi (by omega)
      obtain ⟨t, l, rfl, hstart⟩ := he.head
      have hstart := ne_of_startsExpr hstart
      simp only [List.cons_append, first_cons]
      split
      · simp_all
      · simp_all
      · exact hread.map fun a ha => by simpa using ha

theorem Names.reads {ts : List Token} {names : List Ident} (h : Names ts names) :
    ∀ {depth count : Nat} {rest : List Token}, 16 * ts.length ≤ depth →
      count + names.length ≤ maxArity → (first rest).kind ≠ .comma →
      Reads (parameters depth count) ts rest (· = names) := by
  induction h with
  | one hname =>
      intro depth count rest hdepth hcount hrest
      simp only [List.length_singleton] at hdepth hcount
      obtain ⟨depth, rfl⟩ := Nat.exists_eq_add_of_lt (show 0 < depth by omega)
      rw [Nat.zero_add, parameters]
      refine reads_unlessReported (by omega) (reads_expect hname (by simp) ?_)
      exact reads_refuse (by simpa using hrest) (.refl rfl)
  | @more t comma ts names hname hcomma _ ih =>
      intro depth count rest hdepth hcount hrest
      simp only [List.length_cons] at hdepth hcount
      obtain ⟨depth, rfl⟩ := Nat.exists_eq_add_of_lt (show 0 < depth by omega)
      rw [Nat.zero_add, parameters]
      refine reads_unlessReported (by omega) (reads_expect hname (by simp) ?_)
      refine reads_accept (by simp [hcomma]) (by simp [hcomma]) ?_
      rw [← List.append_nil ts]
      refine Reads.bind (ih (by omega) (by omega) hrest) fun others hothers => .refl ?_
      rw [hothers]

/-! ## Statements -/

/-- A derived phrase is read in front of a token that does not continue it. -/
def StmtReads : (s : StmtSymbol) → List Token → s.Tree → Prop
  | .declarations, ts, ss => ∀ depth rest, 16 * ts.length + 4 ≤ depth →
      (∀ brace, brace.kind = .rightBrace → Reads (block depth) (ts ++ [brace]) rest
        fun body => Program.eraseIds body = Program.eraseIds ss) ∧
      ((first rest).kind = .eof → Reads (declarations depth) ts rest
        fun p => Program.eraseIds p = Program.eraseIds ss)
  | .declaration dangling, ts, s => ∀ depth rest, 16 * ts.length + 3 ≤ depth →
      (dangling = true → (first rest).kind ≠ .kwElse) →
      Reads (declaration depth) ts rest fun o => ∃ a, o = some a ∧ a.eraseIds = s.eraseIds
  | .statement dangling, ts, s => ∀ depth rest, 16 * ts.length + 1 ≤ depth →
      (dangling = true → (first rest).kind ≠ .kwElse) →
      Reads (statement depth) ts rest fun a => a.eraseIds = s.eraseIds
  | .callable, ts, d => ∀ depth rest kind, 16 * ts.length ≤ depth →
      Reads (callable depth kind) ts rest fun a => a.mapIds (fun _ => 0) = d.mapIds fun _ => 0
  | .callables, ts, ds => ∀ depth rest, 16 * ts.length + 1 ≤ depth →
      (first rest).kind = .rightBrace → Reads (methodList depth) ts rest
        fun as => FunctionDecl.mapIdsAll (fun _ => 0) as = FunctionDecl.mapIdsAll (fun _ => 0) ds

section StmtSteps

variable {ts rest : List Token}

theorem reads_atBraceOrEnd {β γ : Type} {f : Bool → Parse β} {k : γ → Parse β} {E : γ → Prop}
    (h : ReadsTo (f (decide ((first (ts ++ rest)).kind = .eof) ||
      decide ((first (ts ++ rest)).kind = .rightBrace))) k ts rest E) :
    ReadsTo (atBraceOrEnd >>= f) k ts rest E :=
  h

theorem reads_atEnd {β γ : Type} {f : Bool → Parse β} {k : γ → Parse β} {E : γ → Prop}
    (h : ReadsTo (f (decide ((first (ts ++ rest)).kind = .eof))) k ts rest E) :
    ReadsTo (atEnd >>= f) k ts rest E :=
  h

theorem StmtReads.noDeclaration : StmtReads .declarations [] [] := by
  intro depth rest hdepth
  obtain ⟨depth, rfl⟩ := Nat.exists_eq_add_of_lt (show 0 < depth by omega)
  rw [Nat.zero_add, Parse.block, declarations]
  refine ⟨fun brace hbrace => reads_atBraceOrEnd ?_, fun heof => reads_atEnd ?_⟩
  · simp only [List.nil_append, List.cons_append, first_cons, hbrace, decide_true, Bool.or_true,
      if_true]
    exact reads_expect hbrace (by simp) (.refl rfl)
  · simp only [List.nil_append, heof, decide_true, if_true]
    exact .refl rfl

theorem StmtReads.declarations {dangling : Bool} {others : List Token} {s : Stmt} {ss : List Stmt}
    (hstart : (StmtSymbol.declaration dangling).Starts ts)
    (hothers : ∀ t l, others = t :: l → t.kind ≠ .kwElse)
    (h : StmtReads (.declaration dangling) ts s) (hs : StmtReads .declarations others ss) :
    StmtReads .declarations (ts ++ others) (s :: ss) := by
  intro depth rest hdepth
  obtain ⟨t, l, rfl, ht⟩ := hstart
  simp only [List.length_append, List.length_cons] at hdepth
  simp only [List.mem_cons, List.not_mem_nil, or_false, not_or] at ht
  obtain ⟨depth, rfl⟩ := Nat.exists_eq_add_of_lt (show 0 < depth by omega)
  obtain ⟨hblock, hprogram⟩ := hs depth rest (by omega)
  rw [Nat.zero_add, Parse.block, Parse.declarations]
  refine ⟨fun brace hbrace => reads_atBraceOrEnd ?_, fun heof => reads_atEnd ?_⟩
  · simp only [List.cons_append, first_cons, ht, decide_false, Bool.or_false, Bool.false_eq_true,
      if_false]
    rw [← List.cons_append, ← List.cons_append, List.append_assoc]
    refine Reads.bind (h depth _ (by simp only [List.length_cons]; omega) fun _ => ?_) ?_
    · cases others with
      | nil => simp [hbrace]
      | cons t' l' => exact hothers t' l' rfl
    · rintro o ⟨a, rfl, ha⟩
      rw [← List.append_nil (others ++ [brace])]
      refine Reads.bind (hblock brace hbrace) fun body hbody => .refl ?_
      simpa [Stmt.mapIdsAll] using ⟨ha, hbody⟩
  · simp only [List.cons_append, first_cons, ht, decide_false, Bool.false_eq_true, if_false]
    rw [← List.cons_append]
    refine Reads.bind (h depth _ (by simp only [List.length_cons]; omega) fun _ => ?_) ?_
    · cases others with
      | nil => simp [heof]
      | cons t' l' => exact hothers t' l' rfl
    · rintro o ⟨a, rfl, ha⟩
      rw [← List.append_nil others]
      refine Reads.bind (hprogram heof) fun body hbody => .refl ?_
      simpa [Stmt.mapIdsAll] using ⟨ha, hbody⟩

/-- A declaration that meets no mistake is kept. -/
theorem Reads.declaration {depth : Nat} {s : Stmt}
    (h : Reads (declarationOrHalt depth) ts rest fun a => a.eraseIds = s.eraseIds) :
    Reads (Parse.declaration (depth + 1)) ts rest
      fun o => ∃ a, o = some a ∧ a.eraseIds = s.eraseIds := by
  intro n errs
  obtain ⟨a, n', ha, hx⟩ := h n errs
  refine ⟨some a, n', ⟨a, rfl, ha⟩, ?_⟩
  rw [Parse.declaration]
  simp only [hx]
  rfl

theorem StmtReads.variable {keyword : Token} {s : Stmt} (hk : keyword.kind = .kwVar)
    (h : Variable ts s) : StmtReads (.declaration false) (keyword :: ts) s := by
  intro depth rest hdepth _
  simp only [List.length_cons] at hdepth
  obtain ⟨depth, rfl⟩ := Nat.exists_eq_add_of_lt (show 1 < depth by omega)
  rw [Nat.add_comm 1]
  apply Reads.declaration
  rw [Parse.declarationOrHalt]
  apply reads_peek
  simp only [List.cons_append, first_cons, hk]
  exact reads_skip (by simp [hk]) (h.reads (by omega))

theorem StmtReads.statement {dangling : Bool} {s : Stmt}
    (hstart : (StmtSymbol.statement dangling).Starts ts)
    (h : StmtReads (.statement dangling) ts s) : StmtReads (.declaration dangling) ts s := by
  intro depth rest hdepth hrest
  obtain ⟨t, l, rfl, ht⟩ := hstart
  simp only [List.mem_cons, List.not_mem_nil, or_false, not_or] at ht
  obtain ⟨depth, rfl⟩ := Nat.exists_eq_add_of_lt (show 1 < depth by omega)
  rw [Nat.add_comm 1]
  apply Reads.declaration
  rw [Parse.declarationOrHalt]
  apply reads_peek
  simp only [List.cons_append, first_cons]
  split
  · exact absurd ‹_› ht.1
  · exact h depth rest (by omega) hrest

theorem StmtReads.classDecl {keyword name l r : Token} {methods : List FunctionDecl}
    (hk : keyword.kind = .kwClass) (hname : name.kind = .identifier) (hl : l.kind = .leftBrace)
    (h : StmtReads .callables ts methods) (hr : r.kind = .rightBrace) :
    StmtReads (.statement false) (keyword :: name :: l :: ts ++ [r]) (.classDecl name.ident methods) := by
  intro depth rest hdepth _
  simp only [List.length_cons, List.length_append, List.length_nil] at hdepth
  obtain ⟨depth, rfl⟩ := Nat.exists_eq_add_of_lt (show 1 < depth by omega)
  rw [Nat.add_comm 1, Parse.statement]
  apply reads_peek
  simp only [List.cons_append, first_cons, hk]
  refine reads_skip (by simp [hk]) ?_
  rw [Parse.classDecl]
  refine reads_expect hname (by simp) (reads_expect hl (by simp) ?_)
  refine Reads.bind (h depth _ (by omega) hr) fun ds hds => reads_expect hr (by simp) (.refl ?_)
  simpa [Stmt.mapIds] using hds

theorem StmtReads.function {keyword : Token} {d : FunctionDecl} (hk : keyword.kind = .kwFunction)
    (h : StmtReads .callable ts d) : StmtReads (.statement false) (keyword :: ts) (.function d) := by
  intro depth rest hdepth _
  simp only [List.length_cons] at hdepth
  obtain ⟨depth, rfl⟩ := Nat.exists_eq_add_of_lt (show 0 < depth by omega)
  rw [Nat.zero_add, Parse.statement]
  apply reads_peek
  simp only [List.cons_append, first_cons, hk]
  refine reads_skip (by simp [hk]) ((h depth rest _ (by omega)).map fun a ha => ?_)
  simpa [Stmt.mapIds] using ha

theorem StmtReads.ret {keyword semi : Token} {value : Option Expr} (hk : keyword.kind = .kwReturn)
    (h : Clause ts value) (hsemi : semi.kind = .semicolon) :
    StmtReads (.statement false) (keyword :: ts ++ [semi]) (.ret keyword.line value) := by
  intro depth rest hdepth _
  simp only [List.length_cons, List.length_append, List.length_nil] at hdepth
  obtain ⟨depth, rfl⟩ := Nat.exists_eq_add_of_lt (show 0 < depth by omega)
  rw [Nat.zero_add, Parse.statement]
  apply reads_peek
  simp only [List.cons_append, first_cons, hk]
  refine reads_skip (by simp [hk]) ?_
  unfold returnStmt
  refine Reads.bind (h.reads hsemi (.inl rfl) (by omega)) fun a ha => ?_
  refine reads_expect hsemi (by simp) (.refl ?_)
  simpa [Stmt.mapIds] using ha

theorem StmtReads.ifThen {dangling : Bool} {keyword l r : Token} {test : List Token} {c : Expr}
    {s : Stmt} (hk : keyword.kind = .kwIf) (hl : l.kind = .leftParen)
    (hc : DerivesExpr .expression test c) (hr : r.kind = .rightParen)
    (h : StmtReads (.statement dangling) ts s) :
    StmtReads (.statement true) (keyword :: l :: test ++ r :: ts) (.ifElse c s none) := by
  intro depth rest hdepth hrest
  simp only [List.length_cons, List.length_append] at hdepth
  obtain ⟨depth, rfl⟩ := Nat.exists_eq_add_of_lt (show 1 < depth by omega)
  have hrest := hrest rfl
  rw [Nat.add_comm 1, Parse.statement]
  apply reads_peek
  simp only [List.cons_append, first_cons, hk]
  refine reads_skip (by simp [hk]) ?_
  rw [Parse.ifStmt]
  refine reads_expect hl (by simp) ?_
  refine Reads.bind (expression_reads hc (by omega) (by simp [hr])) fun c' hc' => ?_
  refine reads_expect hr (by simp) ?_
  rw [← List.append_nil ts]
  refine Reads.bind (h depth _ (by omega) fun _ => hrest) fun s' hs' => ?_
  refine reads_refuse (by simpa using hrest) (.refl ?_)
  simpa [Stmt.mapIds] using ⟨hc', hs'⟩

theorem StmtReads.ifElse {dangling : Bool} {keyword l r orElse : Token} {test ts' : List Token}
    {c : Expr} {s s' : Stmt} (hk : keyword.kind = .kwIf) (hl : l.kind = .leftParen)
    (hc : DerivesExpr .expression test c) (hr : r.kind = .rightParen)
    (h : StmtReads (.statement false) ts s) (helse : orElse.kind = .kwElse)
    (h' : StmtReads (.statement dangling) ts' s') :
    StmtReads (.statement dangling) (keyword :: l :: test ++ r :: ts ++ orElse :: ts')
      (.ifElse c s (some s')) := by
  intro depth rest hdepth hrest
  simp only [List.length_cons, List.length_append] at hdepth
  obtain ⟨depth, rfl⟩ := Nat.exists_eq_add_of_lt (show 1 < depth by omega)
  rw [Nat.add_comm 1, Parse.statement, List.append_assoc]
  apply reads_peek
  simp only [List.cons_append, first_cons, hk]
  refine reads_skip (by simp [hk]) ?_
  rw [Parse.ifStmt]
  refine reads_expect hl (by simp) ?_
  refine Reads.bind (expression_reads hc (by omega) (by simp [hr])) fun c' hc' => ?_
  refine reads_expect hr (by simp) ?_
  refine Reads.bind (h depth _ (by omega) (by simp)) fun a ha => ?_
  refine reads_accept (by simp [helse]) (by simp [helse]) ?_
  rw [← List.append_nil ts']
  refine Reads.bind (h' depth _ (by omega) hrest) fun b hb => .refl ?_
  simpa [Stmt.mapIds] using ⟨hc', ha, hb⟩

theorem StmtReads.forLoop {dangling : Bool} {keyword l semi r : Token} {init test step : List Token}
    {i : Option Stmt} {c e : Option Expr} {s : Stmt} (hk : keyword.kind = .kwFor)
    (hl : l.kind = .leftParen) (hi : ForInit init i) (hc : Clause test c)
    (hsemi : semi.kind = .semicolon) (he : Clause step e) (hr : r.kind = .rightParen)
    (h : StmtReads (.statement dangling) ts s) :
    StmtReads (.statement dangling) (keyword :: l :: init ++ test ++ semi :: step ++ r :: ts)
      (.forLoop i c e s) := by
  intro depth rest hdepth hrest
  simp only [List.length_cons, List.length_append] at hdepth
  obtain ⟨depth, rfl⟩ := Nat.exists_eq_add_of_lt (show 1 < depth by omega)
  rw [Nat.add_comm 1, Parse.statement]
  apply reads_peek
  simp only [List.cons_append, List.append_assoc, first_cons, hk]
  refine reads_skip (by simp [hk]) ?_
  rw [Parse.forStmt]
  refine reads_expect hl (by simp) ?_
  refine Reads.bind (hi.reads (by omega)) fun i' hi' => ?_
  refine Reads.bind (hc.reads hsemi (.inl rfl) (by omega)) fun c' hc' => ?_
  refine reads_expect hsemi (by simp) ?_
  refine Reads.bind (he.reads hr (.inr rfl) (by omega)) fun e' he' => ?_
  refine reads_expect hr (by simp) ?_
  rw [← List.append_nil ts]
  refine Reads.bind (h depth _ (by omega) hrest) fun s' hs' => .refl ?_
  simp only [Stmt.eraseIds, Stmt.mapIds_forLoop]
  exact congr (congr (congr (congrArg _ hi') hc') he') hs'

theorem StmtReads.whileLoop {dangling : Bool} {keyword l r : Token} {test : List Token} {c : Expr}
    {s : Stmt} (hk : keyword.kind = .kwWhile) (hl : l.kind = .leftParen)
    (hc : DerivesExpr .expression test c) (hr : r.kind = .rightParen)
    (h : StmtReads (.statement dangling) ts s) :
    StmtReads (.statement dangling) (keyword :: l :: test ++ r :: ts) (.whileLoop c s) := by
  intro depth rest hdepth hrest
  simp only [List.length_cons, List.length_append] at hdepth
  obtain ⟨depth, rfl⟩ := Nat.exists_eq_add_of_lt (show 1 < depth by omega)
  rw [Nat.add_comm 1, Parse.statement]
  apply reads_peek
  simp only [List.cons_append, first_cons, hk]
  refine reads_skip (by simp [hk]) ?_
  rw [Parse.whileStmt]
  refine reads_expect hl (by simp) ?_
  refine Reads.bind (expression_reads hc (by omega) (by simp [hr])) fun c' hc' => ?_
  refine reads_expect hr (by simp) ?_
  rw [← List.append_nil ts]
  refine Reads.bind (h depth _ (by omega) hrest) fun s' hs' => .refl ?_
  simpa [Stmt.mapIds] using ⟨hc', hs'⟩

theorem StmtReads.print {keyword semi : Token} {e : Expr} (hk : keyword.kind = .kwPrint)
    (h : DerivesExpr .expression ts e) (hsemi : semi.kind = .semicolon) :
    StmtReads (.statement false) (keyword :: ts ++ [semi]) (.print e) := by
  intro depth rest hdepth _
  simp only [List.length_cons, List.length_append, List.length_nil] at hdepth
  obtain ⟨depth, rfl⟩ := Nat.exists_eq_add_of_lt (show 0 < depth by omega)
  rw [Nat.zero_add, Parse.statement]
  apply reads_peek
  simp only [List.cons_append, first_cons, hk]
  refine reads_skip (by simp [hk]) ?_
  unfold printStmt
  refine Reads.bind (expression_reads h (by omega) (by simp [hsemi])) fun a ha => ?_
  refine reads_expect hsemi (by simp) (.refl ?_)
  simpa [Stmt.mapIds] using ha

theorem StmtReads.block {l r : Token} {body : List Stmt} (hl : l.kind = .leftBrace)
    (h : StmtReads .declarations ts body) (hr : r.kind = .rightBrace) :
    StmtReads (.statement false) (l :: ts ++ [r]) (.block body) := by
  intro depth rest hdepth _
  simp only [List.length_cons, List.length_append, List.length_nil] at hdepth
  obtain ⟨depth, rfl⟩ := Nat.exists_eq_add_of_lt (show 0 < depth by omega)
  rw [Nat.zero_add, Parse.statement]
  apply reads_peek
  simp only [List.cons_append, first_cons, hl]
  refine reads_skip (by simp [hl]) (((h depth rest (by omega)).1 r hr).map fun a ha => ?_)
  simpa [Stmt.mapIds] using ha

theorem StmtReads.expr {semi : Token} {e : Expr} (h : DerivesExpr .expression ts e)
    (hsemi : semi.kind = .semicolon) : StmtReads (.statement false) (ts ++ [semi]) (.expr e) := by
  intro depth rest hdepth _
  simp only [List.length_append, List.length_singleton] at hdepth
  obtain ⟨depth, rfl⟩ := Nat.exists_eq_add_of_lt (show 0 < depth by omega)
  have hread : Reads (expressionStmt depth) _ rest _ := expressionStmt_reads h hsemi (by omega)
  obtain ⟨t, l, rfl, hstart⟩ := h.head
  have hstart := ne_of_startsExpr hstart
  simp only [List.mem_cons, List.not_mem_nil, or_false, not_or] at hstart
  rw [Nat.zero_add, Parse.statement]
  apply reads_peek
  simp only [List.cons_append, first_cons]
  split <;> first | exact hread | simp_all

theorem StmtReads.callable {name l r l' r' : Token} {params : List Token} {names : List Ident}
    {body : List Stmt} (hname : name.kind = .identifier) (hl : l.kind = .leftParen)
    (hp : Parameters params names) (hr : r.kind = .rightParen) (hl' : l'.kind = .leftBrace)
    (h : StmtReads .declarations ts body) (hr' : r'.kind = .rightBrace) :
    StmtReads .callable (name :: l :: params ++ r :: l' :: ts ++ [r']) (.mk name.ident names body) := by
  intro depth rest kind hdepth
  simp only [List.length_cons, List.length_append, List.length_nil] at hdepth
  obtain ⟨depth, rfl⟩ := Nat.exists_eq_add_of_lt (show 0 < depth by omega)
  have hblock := (h depth rest (by omega)).1 r' hr'
  rw [Nat.zero_add, Parse.callable]
  simp only [List.cons_append, List.append_assoc]
  refine reads_expect hname (by simp) (reads_expect hl (by simp) ?_)
  cases hp with
  | none =>
      refine reads_sees (by simp [hr]) ?_
      simp only [List.nil_append, List.cons_append, first_cons, hr, decide_true, if_true]
      refine reads_expect hr (by simp) (reads_expect hl' (by simp) ?_)
      rw [← List.append_nil (ts ++ [r'])]
      refine Reads.bind hblock fun b hb => .refl ?_
      simpa [FunctionDecl.mapIds] using hb
  | some hnames hlen =>
      have hread : Reads (parameters depth 0) params (r :: l' :: (ts ++ [r'] ++ rest)) _ :=
        hnames.reads (by omega) (by simpa [maxArity] using hlen) (by simp [hr])
      have hstart : ∃ t l, params = t :: l ∧ t.kind = .identifier := by
        cases hnames with
        | one ht | more ht _ _ => exact ⟨_, _, rfl, ht⟩
      obtain ⟨t, tl, rfl, ht⟩ := hstart
      refine reads_sees (by simp [ht]) ?_
      simp only [List.cons_append, first_cons, ht, reduceCtorEq, decide_false, Bool.false_eq_true,
        if_false]
      rw [← List.cons_append]
      refine Reads.bind hread ?_
      rintro _ rfl
      refine reads_expect hr (by simp) (reads_expect hl' (by simp) ?_)
      rw [← List.append_nil (ts ++ [r'])]
      refine Reads.bind hblock fun b hb => .refl ?_
      simpa [FunctionDecl.mapIds] using hb

theorem StmtReads.noCallable : StmtReads .callables [] [] := by
  intro depth rest hdepth hrest
  obtain ⟨depth, rfl⟩ := Nat.exists_eq_add_of_lt (show 0 < depth by omega)
  rw [Nat.zero_add, Parse.methodList]
  apply reads_atBraceOrEnd
  simp only [List.nil_append, hrest, decide_true, Bool.or_true, if_true]
  exact .refl rfl

theorem StmtReads.callables {others : List Token} {d : FunctionDecl} {ds : List FunctionDecl}
    (hstart : StmtSymbol.callable.Starts ts) (h : StmtReads .callable ts d)
    (hs : StmtReads .callables others ds) : StmtReads .callables (ts ++ others) (d :: ds) := by
  intro depth rest hdepth hrest
  obtain ⟨t, l, rfl, ht⟩ := hstart
  simp only [List.length_append, List.length_cons] at hdepth
  obtain ⟨depth, rfl⟩ := Nat.exists_eq_add_of_lt (show 0 < depth by omega)
  rw [Nat.zero_add, Parse.methodList]
  apply reads_atBraceOrEnd
  simp only [List.cons_append, first_cons, ht, reduceCtorEq, decide_false, Bool.or_false,
    Bool.false_eq_true, if_false]
  rw [← List.cons_append]
  refine Reads.bind (h depth _ _ (by simp only [List.length_cons]; omega)) fun a ha => ?_
  rw [← List.append_nil others]
  refine Reads.bind (hs depth _ (by omega) hrest) fun as has => .refl ?_
  simpa [FunctionDecl.mapIdsAll] using ⟨ha, has⟩

end StmtSteps

/-- What follows a declaration is never an `else`. -/
theorem DerivesStmt.declarations_head {nearest : Bool} {ts : List Token} {ss : List Stmt}
    (h : DerivesStmt nearest .declarations ts ss) : ∀ t l, ts = t :: l → t.kind ≠ .kwElse := by
  cases h with
  | noDeclaration => simp
  | declarations h _ =>
      obtain ⟨t, l, rfl, ht⟩ := h.head
      rintro t' l' heq
      cases heq
      simp_all

/-- **A derived statement is read as its tree, up to node ids.** -/
theorem DerivesStmt.reads {s : StmtSymbol} {ts : List Token} {t : s.Tree}
    (h : DerivesStmt true s ts t) : StmtReads s ts t := by
  induction h with
  | noDeclaration => exact .noDeclaration
  | declarations h hs ih ihs => exact ih.declarations h.head hs.declarations_head ihs
  | «variable» hk h => exact .variable hk h
  | statement h ih => exact ih.statement h.head
  | classDecl hk hname hl _ hr ih => exact ih.classDecl hk hname hl hr
  | function hk _ ih => exact ih.function hk
  | ret hk h hsemi => exact .ret hk h hsemi
  | ifThen hk hl hc hr _ ih => exact ih.ifThen hk hl hc hr
  | ifElse hk hl hc hr _ hd helse _ ih ih' =>
      cases hd rfl
      exact ih.ifElse hk hl hc hr helse ih'
  | forLoop hk hl hi hc hsemi he hr _ ih => exact ih.forLoop hk hl hi hc hsemi he hr
  | whileLoop hk hl hc hr _ ih => exact ih.whileLoop hk hl hc hr
  | print hk h hsemi => exact .print hk h hsemi
  | block hl _ hr ih => exact ih.block hl hr
  | expr h hsemi => exact .expr h hsemi
  | callable hname hl hp hr hl' _ hr' ih => exact ih.callable hname hl hp hr hl' hr'
  | noCallable => exact .noCallable
  | callables h _ ih ihs => exact ih.callables h.head ihs

/-- **A program in the grammar is parsed, as its tree up to node ids.** -/
theorem program_reads (firstId : NodeId) {ts : List Token} {eof : Token} {q : Scriptlet.Program}
    (heof : eof.kind = .eof) (h : Program true ts q) :
    ∃ p, (parse firstId (ts ++ [eof])).program = .ok p ∧ p.eraseIds = q.eraseIds := by
  have hdepth : 16 * ts.length + 4 ≤ parseDepth (ts ++ [eof]).length := by
    simp only [parseDepth, List.length_append]; omega
  obtain ⟨p, n, hp, hrun⟩ := (h.reads _ [eof] hdepth).2 heof firstId []
  refine ⟨p, ?_, hp⟩
  unfold parse
  rw [hrun]
  rfl

end Scriptlet.Grammar
