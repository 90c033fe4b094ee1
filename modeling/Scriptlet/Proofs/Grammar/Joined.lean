import Scriptlet.Proofs.Grammar.ReadStmt
import Scriptlet.Proofs.Tree.Lines

/-!
# Programs one after the other

The grammar does not look at lines, and a program is any list of declarations.  So the tokens of two programs, the
second on other lines, form the two programs one after the other.

* `ExprSymbol.mapLines`, `StmtSymbol.mapLines` — what is derived under a symbol, with its lines replaced.

Principal results: `DerivesStmt.mapLines` — a phrase on other lines; `parse_joined` — the parser reads two programs that
stand one after the other, up to node ids.
-/

set_option autoImplicit false

namespace Scriptlet.Grammar

/-! ## Phrases on other lines -/

/-- What is derived under a symbol, with its lines replaced. -/
def ExprSymbol.mapLines (f : Nat → Nat) : (s : ExprSymbol) → s.Tree → s.Tree
  | .arguments, es => Expr.mapLinesAll f es
  | .expression, e | .ternary, e | .binary _, e | .operand _, e | .unary, e | .call, e | .primary, e =>
      Expr.mapLines f e

/-- What is derived under a symbol, with its lines replaced. -/
def StmtSymbol.mapLines (f : Nat → Nat) : (s : StmtSymbol) → s.Tree → s.Tree
  | .declarations, ss => Stmt.mapLinesAll f ss
  | .declaration _, s | .statement _, s => Stmt.mapLines f s
  | .callable, d => FunctionDecl.mapLines f d
  | .callables, ds => FunctionDecl.mapLinesAll f ds

section Lines

variable {f : Nat → Nat} {ts : List Token}

theorem DerivesExpr.mapLines {s : ExprSymbol} {e : s.Tree} (h : DerivesExpr s ts e) :
    DerivesExpr s (ts.map (Token.mapLine f)) (s.mapLines f e) := by
  induction h with
  | plain _ ih => exact ih.plain
  | assign _ hop _ iht ihv =>
      rw [List.map_append, List.map_cons]
      exact iht.assign hop ihv
  | set _ hop _ iht ihv =>
      rw [List.map_append, List.map_cons]
      exact iht.set hop ihv
  | compound _ hop _ iht ihv =>
      rw [List.map_append, List.map_cons]
      exact iht.compound hop ihv
  | step _ hop iht =>
      rw [List.map_append, List.map_cons]
      exact iht.step hop
  | unconditional _ ih => exact ih.unconditional
  | conditional _ hq _ hc _ iht iha ihb =>
      simp only [List.map_append, List.map_cons]
      exact iht.conditional hq iha hc ihb
  | single _ ih => exact ih.single
  | joinLogical _ hop _ iha ihb =>
      rw [List.map_append, List.map_cons]
      exact iha.joinLogical hop ihb
  | joinBinary hlevel _ hop _ iha ihb =>
      rw [List.map_append, List.map_cons]
      exact .joinBinary hlevel iha hop ihb
  | logicalOperand _ ih => exact ih.logicalOperand
  | equalityOperand _ ih => exact ih.equalityOperand
  | comparisonOperand _ ih => exact ih.comparisonOperand
  | termOperand _ ih => exact ih.termOperand
  | factorOperand _ ih => exact ih.factorOperand
  | unary hop _ ih => exact .unary hop ih
  | callUnary _ ih => exact ih.callUnary
  | primaryCall _ ih => exact ih.primaryCall
  | call _ hl _ hlen hr ihf iha =>
      simp only [List.map_append, List.map_cons, List.map_nil]
      exact ihf.call hl iha (Nat.le_trans (Nat.le_of_eq (Expr.length_mapLinesAll f _)) hlen) hr
  | callNone _ hl hr ihf =>
      simp only [List.map_append, List.map_cons, List.map_nil]
      exact ihf.callNone hl hr
  | get _ hdot hname ih =>
      simp only [List.map_append, List.map_cons, List.map_nil]
      exact ih.get hdot hname
  | index _ hl _ hr iht ihp =>
      simp only [List.map_append, List.map_cons, List.map_nil]
      exact iht.index hl ihp hr
  | number ht => exact .number ht
  | string ht => exact .string ht
  | trueLit ht => exact .trueLit ht
  | falseLit ht => exact .falseLit ht
  | nullLit ht => exact .nullLit ht
  | this ht => exact .this ht
  | name ht => exact .name ht
  | group hl _ hr ih =>
      simp only [List.map_append, List.map_cons, List.map_nil]
      exact .group hl ih hr
  | array hl _ hr ih =>
      simp only [List.map_append, List.map_cons, List.map_nil]
      exact .array hl ih hr
  | arrayNone hl hr => exact .arrayNone hl hr
  | one _ ih => exact ih.one
  | more _ hcomma _ ih ihs =>
      rw [List.map_append, List.map_cons]
      exact ih.more hcomma ihs

theorem Clause.mapLines {o : Option Expr} (h : Clause ts o) :
    Clause (ts.map (Token.mapLine f)) (o.map (Expr.mapLines f)) := by
  cases h with
  | none => exact .none
  | some h => exact .some h.mapLines

theorem Variable.mapLines {s : Stmt} (h : Variable ts s) :
    Variable (ts.map (Token.mapLine f)) (s.mapLines f) := by
  cases h with
  | bare hname hsemi => exact .bare hname hsemi
  | init hname hequals h hsemi =>
      simp only [List.map_append, List.map_cons, List.map_nil]
      exact .init hname hequals h.mapLines hsemi

theorem ForInit.mapLines {o : Option Stmt} (h : ForInit ts o) :
    ForInit (ts.map (Token.mapLine f)) (o.map (Stmt.mapLines f)) := by
  cases h with
  | none hsemi => exact .none hsemi
  | var hkeyword h => exact .var hkeyword h.mapLines
  | expr h hsemi =>
      simp only [List.map_append, List.map_cons, List.map_nil]
      exact .expr h.mapLines hsemi

theorem Names.mapLines {names : List Ident} (h : Names ts names) :
    Names (ts.map (Token.mapLine f)) (names.map (Ident.mapLine f)) := by
  induction h with
  | one hname => exact .one hname
  | more hname hcomma _ ih => exact .more hname hcomma ih

theorem Parameters.mapLines {names : List Ident} (h : Parameters ts names) :
    Parameters (ts.map (Token.mapLine f)) (names.map (Ident.mapLine f)) := by
  cases h with
  | none => exact .none
  | some h hlen => exact .some h.mapLines (by rwa [List.length_map])

/-- **A phrase on other lines.** -/
theorem DerivesStmt.mapLines {nearest : Bool} {s : StmtSymbol} {t : s.Tree} (h : DerivesStmt nearest s ts t) :
    DerivesStmt nearest s (ts.map (Token.mapLine f)) (s.mapLines f t) := by
  induction h with
  | noDeclaration => exact .noDeclaration
  | declarations _ _ ih ihs =>
      rw [List.map_append]
      exact ih.declarations ihs
  | «variable» hk h => exact .variable hk h.mapLines
  | statement _ ih => exact ih.statement
  | classDecl hk hname hl _ hr ih =>
      simp only [List.map_append, List.map_cons, List.map_nil]
      exact ih.classDecl hk hname hl hr
  | function hk _ ih => exact ih.function hk
  | ret hk h hsemi =>
      simp only [List.map_append, List.map_cons, List.map_nil]
      exact .ret hk h.mapLines hsemi
  | ifThen hk hl hc hr _ ih =>
      simp only [List.map_append, List.map_cons]
      exact ih.ifThen hk hl hc.mapLines hr
  | ifElse hk hl hc hr _ hd helse _ ih ih' =>
      simp only [List.map_append, List.map_cons]
      exact ih.ifElse hk hl hc.mapLines hr hd helse ih'
  | forLoop hk hl hi hc hsemi he hr _ ih =>
      simp only [List.map_append, List.map_cons, StmtSymbol.mapLines, Stmt.mapLines_forLoop]
      exact ih.forLoop hk hl hi.mapLines hc.mapLines hsemi he.mapLines hr
  | whileLoop hk hl hc hr _ ih =>
      simp only [List.map_append, List.map_cons]
      exact ih.whileLoop hk hl hc.mapLines hr
  | print hk h hsemi =>
      simp only [List.map_append, List.map_cons, List.map_nil]
      exact .print hk h.mapLines hsemi
  | block hl _ hr ih =>
      simp only [List.map_append, List.map_cons, List.map_nil]
      exact ih.block hl hr
  | expr h hsemi =>
      simp only [List.map_append, List.map_cons, List.map_nil]
      exact .expr h.mapLines hsemi
  | callable hname hl hp hr hl' _ hr' ih =>
      simp only [List.map_append, List.map_cons, List.map_nil]
      exact ih.callable hname hl hp.mapLines hr hl' hr'
  | noCallable => exact .noCallable
  | callables _ _ ih ihs =>
      rw [List.map_append]
      exact ih.callables ihs

end Lines

/-! ## Joined programs -/

/-- The tokens of two programs form the two programs one after the other. -/
theorem Program.append {nearest : Bool} {ts ts' : List Token} {p q : Scriptlet.Program} (hp : Program nearest ts p)
    (hq : Program nearest ts' q) : Program nearest (ts ++ ts') (p ++ q) := by
  induction p generalizing ts with
  | nil =>
      cases hp with
      | noDeclaration => exact hq
  | cons s p ih =>
      cases hp with
      | declarations hs hp =>
          rw [List.append_assoc]
          exact hs.declarations (ih hp)

/-- **Two programs one after the other, the second on other lines, are read as such**, up to node ids. -/
theorem parse_joined {firstId secondId : NodeId} {ts ts' : List Token} {eof eof' eof'' : Token}
    {p q : Scriptlet.Program} (f : Nat → Nat) (hts : ∀ t ∈ ts, t.kind ≠ .eof) (hts' : ∀ t ∈ ts', t.kind ≠ .eof)
    (heof : eof.kind = .eof) (heof' : eof'.kind = .eof) (heof'' : eof''.kind = .eof)
    (hp : (parse firstId (ts ++ [eof])).program = .ok p) (hq : (parse secondId (ts' ++ [eof'])).program = .ok q) :
    ∃ r, (parse firstId (ts ++ ts'.map (Token.mapLine f) ++ [eof''])).program = .ok r ∧
      r.eraseIds = Program.eraseIds (p ++ Stmt.mapLinesAll f q) := by
  have hmoved : Program true (ts'.map (Token.mapLine f)) (Stmt.mapLinesAll f q) :=
    (program_sound hts' heof' hq).mapLines
  exact program_reads firstId heof'' ((program_sound hts heof hp).append hmoved)

end Scriptlet.Grammar
