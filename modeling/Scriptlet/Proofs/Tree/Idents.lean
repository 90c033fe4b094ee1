import Scriptlet.Proofs.Grammar.Sound
import Scriptlet.Proofs.Scoping.Surroundings
import Scriptlet.Proofs.Token.Names

/-!
# Names in trees

The names that a tree declares, and those through which it reads and assigns variables, are names of tokens.  The
keyword `this` is no such name.

* `Expr.idents`, `Stmt.idents`, `FunctionDecl.idents` — the names of variables, parameters, functions and classes in a
  tree.

Principal result: `parse_idents` — no name in a parsed program is spelled `this`.
-/

set_option autoImplicit false

namespace Scriptlet

mutual
/-- The names of variables in an expression. -/
def Expr.idents : Expr → List Ident
  | .lit _ => []
  | .group inner => inner.idents
  | .unary _ operand => operand.idents
  | .binary _ left right => left.idents ++ right.idents
  | .logical _ left right => left.idents ++ right.idents
  | .ternary test whenTrue whenFalse => test.idents ++ whenTrue.idents ++ whenFalse.idents
  | .var _ name => [name]
  | .assign _ name value => name :: value.idents
  | .update _ name _ operand => name :: operand.idents
  | .this _ _ => []
  | .array items => Expr.identsAll items
  | .index target _ position => target.idents ++ position.idents
  | .call callee _ args => callee.idents ++ Expr.identsAll args
  | .get object _ => object.idents
  | .set object _ value => object.idents ++ value.idents
/-- The names of variables in expressions. -/
def Expr.identsAll : List Expr → List Ident
  | [] => []
  | e :: rest => e.idents ++ Expr.identsAll rest
end

/-- The names of variables in an expression that may be missing. -/
def Expr.identsOpt : Option Expr → List Ident
  | none => []
  | some e => e.idents

mutual
/-- The names in a statement, those that it declares included. -/
def Stmt.idents : Stmt → List Ident
  | .expr e => e.idents
  | .print e => e.idents
  | .var name init => name :: Expr.identsOpt init
  | .block body => Stmt.identsAll body
  | .ifElse test whenTrue none => test.idents ++ whenTrue.idents
  | .ifElse test whenTrue (some whenFalse) => test.idents ++ whenTrue.idents ++ whenFalse.idents
  | .whileLoop test body => test.idents ++ body.idents
  | .function decl => decl.idents
  | .classDecl name methods => name :: FunctionDecl.identsAll methods
  | .ret _ value => Expr.identsOpt value
/-- The names in statements. -/
def Stmt.identsAll : List Stmt → List Ident
  | [] => []
  | s :: rest => s.idents ++ Stmt.identsAll rest
/-- The names in a function, its own and those of its parameters included. -/
def FunctionDecl.idents : FunctionDecl → List Ident
  | .mk name params body => name :: (params ++ Stmt.identsAll body)
/-- The names in functions. -/
def FunctionDecl.identsAll : List FunctionDecl → List Ident
  | [] => []
  | d :: rest => d.idents ++ FunctionDecl.identsAll rest
end

/-! ## Names of parts -/

theorem Expr.identsAll_eq_flatMap (es : List Expr) : Expr.identsAll es = es.flatMap Expr.idents := by
  induction es with
  | nil => rfl
  | cons e es ih => rw [Expr.identsAll, ih, List.flatMap_cons]

theorem Expr.idents_part {e part : Expr} (h : part ∈ e.parts) : part.idents ⊆ e.idents := by
  intro name hname
  cases e with
  | array items =>
      rw [Expr.idents, Expr.identsAll_eq_flatMap]
      exact List.mem_flatMap.mpr ⟨part, h, hname⟩
  | call callee line args =>
      rw [Expr.idents, Expr.identsAll_eq_flatMap]
      rcases List.mem_cons.mp h with rfl | h
      · exact List.mem_append_left _ hname
      · exact List.mem_append_right _ (List.mem_flatMap.mpr ⟨part, h, hname⟩)
  | lit | var | this => cases h
  | group | unary | binary | logical | ternary | assign | update | index | get | set =>
      simp only [Expr.parts, List.mem_cons, List.not_mem_nil, or_false] at h
      rcases h with rfl | rfl | rfl <;> simp [Expr.idents, hname]

theorem Expr.Contains.idents {e node : Expr} (h : e.Contains node) : node.idents ⊆ e.idents := by
  induction h with
  | self e => exact List.Subset.refl _
  | part hpart _ ih => exact List.Subset.trans ih (Expr.idents_part hpart)

/-- What a statement declares is among its names. -/
theorem Stmt.names_subset (s : Stmt) : s.names ⊆ s.idents.map Ident.name := by
  unfold Stmt.names
  fun_induction Stmt.declared s with
  | case1 name init => simp [Stmt.idents]
  | case2 decl =>
      obtain ⟨name, params, body⟩ := decl
      simp [Stmt.idents, FunctionDecl.idents, FunctionDecl.name]
  | case3 name methods => simp [Stmt.idents]
  | case4 test whenTrue ih =>
      rw [Stmt.idents, List.map_append]
      exact List.subset_append_of_subset_right _ ih
  | case5 test whenTrue whenFalse ih ih' =>
      simp only [Stmt.idents, List.map_append, List.append_subset]
      refine ⟨List.Subset.trans ih ?_, List.Subset.trans ih' (List.subset_append_right _ _)⟩
      exact List.Subset.trans (List.subset_append_right _ _) (List.subset_append_left _ _)
  | case6 test body ih =>
      rw [Stmt.idents, List.map_append]
      exact List.subset_append_of_subset_right _ ih
  | case7 => exact List.nil_subset _

/-! ## Names of derived trees -/

namespace Grammar

/-- The names of what is derived under a symbol. -/
def ExprSymbol.idents : (s : ExprSymbol) → s.Tree → List Ident
  | .arguments, es => Expr.identsAll es
  | .expression, e | .ternary, e | .binary _, e | .operand _, e | .unary, e | .call, e | .primary, e => e.idents

variable {S : Ident → Prop}

theorem DerivesExpr.idents {s : ExprSymbol} {ts : List Token} {t : s.Tree} (h : DerivesExpr s ts t)
    (hts : ∀ t ∈ ts, t.kind = .identifier → S t.ident) : ∀ name ∈ s.idents t, S name := by
  induction h with
  | plain _ ih | unconditional _ ih | single _ ih | logicalOperand _ ih | equalityOperand _ ih
  | comparisonOperand _ ih | termOperand _ ih | factorOperand _ ih | callUnary _ ih | primaryCall _ ih => exact ih hts
  | number | string | trueLit | falseLit | nullLit | arrayNone | this => exact nofun
  | name hkind => exact List.forall_mem_singleton.mpr (hts _ List.mem_cons_self hkind)
  | one _ ih => simpa [ExprSymbol.idents, Expr.identsAll] using ih hts
  | unary | joinLogical | joinBinary | get | group | array | more | assign | set | compound | step
  | conditional | call | callNone | index =>
      simp only [List.forall_mem_append, List.forall_mem_cons] at hts
      simp_all [ExprSymbol.idents, Expr.idents, Expr.identsAll, or_imp]

theorem Clause.idents {ts : List Token} {o : Option Expr} (h : Clause ts o)
    (hts : ∀ t ∈ ts, t.kind = .identifier → S t.ident) : ∀ name ∈ Expr.identsOpt o, S name := by
  cases h with
  | none => exact nofun
  | some he => exact he.idents hts

theorem Variable.idents {ts : List Token} {s : Stmt} (h : Variable ts s)
    (hts : ∀ t ∈ ts, t.kind = .identifier → S t.ident) : ∀ name ∈ s.idents, S name := by
  cases h with
  | bare hkind _ => exact List.forall_mem_singleton.mpr (hts _ List.mem_cons_self hkind)
  | init hkind _ he _ =>
      have hname := hts _ List.mem_cons_self hkind
      have hvalue := he.idents fun t ht => hts t (by simp [ht])
      exact List.forall_mem_cons.mpr ⟨hname, hvalue⟩

theorem ForInit.idents {ts : List Token} {o : Option Stmt} (h : ForInit ts o)
    (hts : ∀ t ∈ ts, t.kind = .identifier → S t.ident) : ∀ s ∈ o, ∀ name ∈ s.idents, S name := by
  cases h with
  | none _ => exact nofun
  | var _ hs =>
      rintro s ⟨⟩
      exact hs.idents fun t ht => hts t (List.mem_cons_of_mem _ ht)
  | expr he _ =>
      rintro s ⟨⟩
      exact he.idents fun t ht => hts t (List.mem_append_left _ ht)

theorem Names.idents {ts : List Token} {names : List Ident} (h : Names ts names)
    (hts : ∀ t ∈ ts, t.kind = .identifier → S t.ident) : ∀ name ∈ names, S name := by
  induction h with
  | one hkind => exact List.forall_mem_singleton.mpr (hts _ List.mem_cons_self hkind)
  | more hkind _ _ ih =>
      have hname := hts _ List.mem_cons_self hkind
      exact List.forall_mem_cons.mpr ⟨hname, ih fun t ht => hts t (by simp [ht])⟩

theorem Parameters.idents {ts : List Token} {names : List Ident} (h : Parameters ts names)
    (hts : ∀ t ∈ ts, t.kind = .identifier → S t.ident) : ∀ name ∈ names, S name := by
  cases h with
  | none => exact nofun
  | some hnames _ => exact hnames.idents hts

/-- The names of what is derived under a symbol. -/
def StmtSymbol.idents : (s : StmtSymbol) → s.Tree → List Ident
  | .declarations, ss => Stmt.identsAll ss
  | .declaration _, s | .statement _, s => s.idents
  | .callable, d => d.idents
  | .callables, ds => FunctionDecl.identsAll ds

theorem idents_forLoop {init : Option Stmt} {test step : Option Expr} {body : Stmt}
    (hinit : ∀ s ∈ init, ∀ name ∈ s.idents, S name) (htest : ∀ name ∈ Expr.identsOpt test, S name)
    (hstep : ∀ name ∈ Expr.identsOpt step, S name) (hbody : ∀ name ∈ body.idents, S name) :
    ∀ name ∈ (Stmt.forLoop init test step body).idents, S name := by
  cases init <;> cases test <;> cases step <;>
    simp_all [Stmt.forLoop, Stmt.idents, Stmt.identsAll, Expr.idents, Expr.identsOpt, or_imp]

theorem DerivesStmt.idents {nearest : Bool} {s : StmtSymbol} {ts : List Token} {t : s.Tree}
    (h : DerivesStmt nearest s ts t) (hts : ∀ t ∈ ts, t.kind = .identifier → S t.ident) :
    ∀ name ∈ s.idents t, S name := by
  induction h with
  | noDeclaration | noCallable => exact nofun
  | statement _ ih => exact ih hts
  | «variable» _ hs => exact hs.idents fun t ht => hts t (List.mem_cons_of_mem _ ht)
  | ret _ hvalue _ => exact hvalue.idents fun t ht => hts t (by simp [ht])
  | print _ he _ | expr he _ => exact he.idents fun t ht => hts t (by simp [ht])
  | ifThen _ _ he _ _ ih | whileLoop _ _ he _ _ ih =>
      simp only [List.forall_mem_append, List.forall_mem_cons] at hts
      exact List.forall_mem_append.mpr ⟨he.idents hts.1.2.2, ih hts.2.2⟩
  | ifElse _ _ he _ _ _ _ _ ih ih' =>
      simp only [List.forall_mem_append, List.forall_mem_cons] at hts
      have htest := he.idents hts.1.1.2.2
      exact List.forall_mem_append.mpr ⟨List.forall_mem_append.mpr ⟨htest, ih hts.1.2.2⟩, ih' hts.2.2⟩
  | forLoop _ _ hi hc _ he _ _ ih =>
      refine idents_forLoop (hi.idents ?_) (hc.idents ?_) (he.idents ?_) (ih ?_) <;>
        exact fun t ht => hts t (by simp [ht])
  | callable hkind _ hparams _ _ _ _ ih =>
      have hname := hts _ List.mem_cons_self hkind
      have hparams := hparams.idents fun t ht => hts t (by simp [ht])
      have hbody := ih fun t ht => hts t (by simp [ht])
      exact List.forall_mem_cons.mpr ⟨hname, List.forall_mem_append.mpr ⟨hparams, hbody⟩⟩
  | classDecl _ hkind _ _ _ ih =>
      have hname := hts _ (by simp) hkind
      have hmethods := ih fun t ht => hts t (by simp [ht])
      exact List.forall_mem_cons.mpr ⟨hname, hmethods⟩
  | function _ _ ih | block _ _ _ ih => exact ih fun t ht => hts t (by simp [ht])
  | declarations _ _ ih ihs | callables _ _ ih ihs =>
      simp only [List.forall_mem_append] at hts
      exact List.forall_mem_append.mpr ⟨ih hts.1, ihs hts.2⟩

end Grammar

/-- **No name in a parsed program is spelled `this`.** -/
theorem parse_idents {firstId : NodeId} {source : String} {p : Program}
    (h : (parse firstId (tokens source)).program = .ok p) : ∀ name ∈ Stmt.identsAll p, name.name ≠ thisName := by
  obtain ⟨ts, line, htokens, hplain⟩ := tokens_spec source
  rw [htokens] at h
  have hderived := Grammar.program_sound (fun t ht => (hplain t ht).notEnd) rfl h
  exact Grammar.DerivesStmt.idents (S := fun name => name.name ≠ thisName) hderived fun t ht hkind =>
    (hplain t ht).notThis hkind

end Scriptlet
