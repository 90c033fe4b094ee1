import Scriptlet.Proofs.Grammar.Exact
import Scriptlet.Proofs.Scoping.Static
import Scriptlet.Proofs.Token.Names

/-!
# Guarded programs

Two forms let a program read a local name that was never given a value: a function or class declared as
a branch of an `if` or as the body of a loop in a local scope, which may never run, and a variable that is
updated in its own initializer.  `Stmt.guarded` excludes both.

`Stmt.shaped` collects what the grammar and the lexical rules say about the trees of scanned programs: a
branch or loop body is no variable declaration, and no variable is named `this`.

Principal results: `scopesAfter_of_guarded` — in a guarded program branches and loop bodies declare
nothing in a local scope; `parse_shaped` — parsed programs are shaped; `parse_guarded` — whether a program
is guarded does not depend on its node ids.
-/

set_option autoImplicit false

namespace Scriptlet

/-- Whether an expression updates a name by a compound assignment, increment or decrement. -/
def Expr.updates (name : String) (e : Expr) : Bool :=
  e.references.any fun r => r.access = .update && r.name = name

namespace Stmt

/-- Whether a statement is the declaration of a function or class. -/
def isCallableDecl : Stmt → Bool
  | .function _ => true
  | .classDecl _ _ => true
  | _ => false

/-- Whether a statement may be a branch or loop body, nested in a block or function or not. -/
def mayBranch (nested : Bool) (s : Stmt) : Bool := !(nested && s.isCallableDecl)

/-- Whether a statement is the declaration of a variable. -/
def isVariableDecl : Stmt → Bool
  | .var _ _ => true
  | _ => false

end Stmt

mutual
/-- Whether a statement, nested in a block or function or not, is guarded. -/
def Stmt.guarded (nested : Bool) : Stmt → Bool
  | .var name (some init) => !(nested && init.updates name.name)
  | .block body => Stmt.guardedAll true body
  | .ifElse _ whenTrue none => whenTrue.mayBranch nested && whenTrue.guarded nested
  | .ifElse _ whenTrue (some whenFalse) =>
      whenTrue.mayBranch nested && whenTrue.guarded nested &&
        (whenFalse.mayBranch nested && whenFalse.guarded nested)
  | .whileLoop _ body => body.mayBranch nested && body.guarded nested
  | .function decl => decl.guarded
  | .classDecl _ methods => FunctionDecl.guardedAll methods
  | _ => true
/-- Whether statements are guarded. -/
def Stmt.guardedAll (nested : Bool) : List Stmt → Bool
  | [] => true
  | s :: rest => s.guarded nested && Stmt.guardedAll nested rest
/-- Whether the body of a function is guarded. -/
def FunctionDecl.guarded : FunctionDecl → Bool
  | .mk _ _ body => Stmt.guardedAll true body
/-- Whether the bodies of functions are guarded. -/
def FunctionDecl.guardedAll : List FunctionDecl → Bool
  | [] => true
  | d :: rest => d.guarded && FunctionDecl.guardedAll rest
end

/-- Whether a program is guarded. -/
def Program.guarded (p : Program) : Bool := Stmt.guardedAll false p

mutual
/-- Whether a statement has the form of a scanned and parsed one. -/
def Stmt.shaped : Stmt → Bool
  | .var name _ => name.name ≠ thisName
  | .block body => Stmt.shapedAll body
  | .ifElse _ whenTrue none => !whenTrue.isVariableDecl && whenTrue.shaped
  | .ifElse _ whenTrue (some whenFalse) =>
      !whenTrue.isVariableDecl && whenTrue.shaped && (!whenFalse.isVariableDecl && whenFalse.shaped)
  | .whileLoop _ body => !body.isVariableDecl && body.shaped
  | .function decl => decl.shaped
  | .classDecl _ methods => FunctionDecl.shapedAll methods
  | _ => true
/-- Whether statements have the form of parsed ones. -/
def Stmt.shapedAll : List Stmt → Bool
  | [] => true
  | s :: rest => s.shaped && Stmt.shapedAll rest
/-- Whether a function has the form of a parsed one. -/
def FunctionDecl.shaped : FunctionDecl → Bool
  | .mk _ _ body => Stmt.shapedAll body
/-- Whether functions have the form of parsed ones. -/
def FunctionDecl.shapedAll : List FunctionDecl → Bool
  | [] => true
  | d :: rest => d.shaped && FunctionDecl.shapedAll rest
end

/-- **In a local scope a guarded branch or loop body declares nothing.** -/
theorem Stmt.scopesAfter_of_guarded (s : Stmt) (Γ : ScopeStack) (hg : s.guarded true = true)
    (hs : s.shaped = true) (hc : s.mayBranch true = true) (hv : s.isVariableDecl = false) :
    s.scopesAfter Γ = Γ := by
  fun_induction Stmt.scopesAfter s Γ with
  | case1 => simp [isVariableDecl] at hv
  | case2 | case3 => simp [mayBranch, isCallableDecl] at hc
  | case4 _ whenTrue Γ ih =>
      simp [guarded, shaped] at hg hs
      exact ih hg.2 hs.2 hg.1 hs.1
  | case5 _ whenTrue whenFalse Γ ih₁ ih₂ =>
      simp [guarded, shaped] at hg hs
      rw [ih₂ hg.2.2 hs.2.2 hg.2.1 hs.2.1, ih₁ hg.1.2 hs.1.2 hg.1.1 hs.1.1]
  | case6 _ body Γ ih =>
      simp [guarded, shaped] at hg hs
      exact ih hg.2 hs.2 hg.1 hs.1
  | case7 => rfl

/-! ## Trees of scanned programs -/

namespace Grammar

/-- What the grammar says about the form of a tree. -/
def Shaped : (s : StmtSymbol) → s.Tree → Prop
  | .declarations, ss => Stmt.shapedAll ss = true
  | .declaration _, s => s.shaped = true
  | .statement _, s => s.shaped = true ∧ s.isVariableDecl = false
  | .callable, d => d.shaped = true
  | .callables, ds => FunctionDecl.shapedAll ds = true

theorem Variable.shaped {ts : List Token} {s : Stmt} (h : Variable ts s) (hts : ∀ t ∈ ts, t.Plain) :
    s.shaped = true := by
  cases h with
  | bare hname _ | init hname _ _ _ => exact decide_eq_true ((hts _ (by simp)).notThis hname)

theorem ForInit.shaped {ts : List Token} {o : Option Stmt} (h : ForInit ts o)
    (hts : ∀ t ∈ ts, t.Plain) : ∀ s, o = some s → s.shaped = true := by
  cases h with
  | none _ => simp
  | var _ h =>
      rintro s ⟨⟩
      exact h.shaped fun t ht => hts t (by simp [ht])
  | expr _ _ =>
      rintro s ⟨⟩
      rfl

theorem forLoop_shaped {init : Option Stmt} {test step : Option Expr} {body : Stmt}
    (hinit : ∀ s, init = some s → s.shaped = true) (hbody : body.shaped = true)
    (hvar : body.isVariableDecl = false) :
    (Stmt.forLoop init test step body).shaped = true ∧
      (Stmt.forLoop init test step body).isVariableDecl = false := by
  cases init <;> cases step <;>
    simp_all [Stmt.forLoop, Stmt.shaped, Stmt.shapedAll, Stmt.isVariableDecl]

theorem DerivesStmt.shaped {nearest : Bool} {s : StmtSymbol} {ts : List Token} {t : s.Tree}
    (h : DerivesStmt nearest s ts t) (hts : ∀ t ∈ ts, t.Plain) : Shaped s t := by
  induction h with
  | noDeclaration | noCallable | ret | print | expr => simp [Shaped, Stmt.shapedAll, Stmt.shaped,
      FunctionDecl.shapedAll, Stmt.isVariableDecl]
  | declarations _ _ ih ihs =>
      have := ih fun t ht => hts t (by simp [ht])
      have := ihs fun t ht => hts t (by simp [ht])
      simp_all [Shaped, Stmt.shapedAll]
  | «variable» _ h => exact h.shaped fun t ht => hts t (by simp [ht])
  | statement _ ih => exact (ih hts).1
  | classDecl _ _ _ _ _ ih =>
      exact ⟨ih fun t ht => hts t (by simp [ht]), rfl⟩
  | function _ _ ih => exact ⟨ih fun t ht => hts t (by simp [ht]), rfl⟩
  | ifThen _ _ _ _ _ ih =>
      have := ih fun t ht => hts t (by simp [ht])
      simp_all [Shaped, Stmt.shaped, Stmt.isVariableDecl]
  | ifElse _ _ _ _ _ _ _ _ ih ih' =>
      have := ih fun t ht => hts t (by simp [ht])
      have := ih' fun t ht => hts t (by simp [ht])
      simp_all [Shaped, Stmt.shaped, Stmt.isVariableDecl]
  | forLoop _ _ hi _ _ _ _ _ ih =>
      have := ih fun t ht => hts t (by simp [ht])
      exact forLoop_shaped (hi.shaped fun t ht => hts t (by simp [ht])) this.1 this.2
  | whileLoop _ _ _ _ _ ih =>
      have := ih fun t ht => hts t (by simp [ht])
      simp_all [Shaped, Stmt.shaped, Stmt.isVariableDecl]
  | block _ _ _ ih => exact ⟨ih fun t ht => hts t (by simp [ht]), rfl⟩
  | callable _ _ _ _ _ _ _ ih => exact ih fun t ht => hts t (by simp [ht])
  | callables _ _ ih ihs =>
      have := ih fun t ht => hts t (by simp [ht])
      have := ihs fun t ht => hts t (by simp [ht])
      simp_all [Shaped, FunctionDecl.shapedAll]

end Grammar

/-- **The programs of scanned sources are shaped.** -/
theorem parse_shaped {firstId : NodeId} {source : String} {p : Program}
    (h : (parse firstId (tokens source)).program = .ok p) : Stmt.shapedAll p = true := by
  obtain ⟨ts, line, htokens, hplain⟩ := tokens_spec source
  rw [htokens] at h
  have hp := Grammar.program_sound (fun t ht => (hplain t ht).notEnd) rfl h
  exact hp.shaped hplain

/-! ## Node ids do not matter -/

theorem Expr.updates_mapIds (f : NodeId → NodeId) (name : String) (e : Expr) :
    (e.mapIds f).updates name = e.updates name := by
  simp only [Expr.updates, Expr.references_mapIds, List.any_map]
  rfl

theorem Stmt.mayBranch_mapIds (f : NodeId → NodeId) (nested : Bool) (s : Stmt) :
    (s.mapIds f).mayBranch nested = s.mayBranch nested := by
  cases s with
  | ifElse _ _ whenFalse => cases whenFalse <;> rfl
  | _ => rfl

mutual
theorem Stmt.guarded_mapIds (f : NodeId → NodeId) (nested : Bool) :
    ∀ s : Stmt, (s.mapIds f).guarded nested = s.guarded nested
  | .expr _ | .print _ | .var _ none | .ret _ _ => rfl
  | .var name (some init) => by
      simp [Stmt.mapIds, Stmt.guarded, init.updates_mapIds]
  | .block body => Stmt.guardedAll_mapIds f true body
  | .ifElse _ whenTrue none => by
      simp [Stmt.mapIds, Stmt.guarded, whenTrue.guarded_mapIds f, whenTrue.mayBranch_mapIds]
  | .ifElse _ whenTrue (some whenFalse) => by
      simp [Stmt.mapIds, Stmt.guarded, whenTrue.guarded_mapIds f, whenTrue.mayBranch_mapIds,
        whenFalse.guarded_mapIds f, whenFalse.mayBranch_mapIds]
  | .whileLoop _ body => by
      simp [Stmt.mapIds, Stmt.guarded, body.guarded_mapIds f, body.mayBranch_mapIds]
  | .function decl => decl.guarded_mapIds f
  | .classDecl _ methods => FunctionDecl.guardedAll_mapIds f methods
theorem Stmt.guardedAll_mapIds (f : NodeId → NodeId) (nested : Bool) :
    ∀ ss : List Stmt, Stmt.guardedAll nested (Stmt.mapIdsAll f ss) = Stmt.guardedAll nested ss
  | [] => rfl
  | s :: ss => by
      simp [Stmt.mapIdsAll, Stmt.guardedAll, s.guarded_mapIds f, Stmt.guardedAll_mapIds f nested ss]
theorem FunctionDecl.guarded_mapIds (f : NodeId → NodeId) :
    ∀ d : FunctionDecl, (d.mapIds f).guarded = d.guarded
  | .mk _ _ body => Stmt.guardedAll_mapIds f true body
theorem FunctionDecl.guardedAll_mapIds (f : NodeId → NodeId) : ∀ ds : List FunctionDecl,
    FunctionDecl.guardedAll (FunctionDecl.mapIdsAll f ds) = FunctionDecl.guardedAll ds
  | [] => rfl
  | d :: ds => by
      simp [FunctionDecl.mapIdsAll, FunctionDecl.guardedAll, d.guarded_mapIds f,
        FunctionDecl.guardedAll_mapIds f ds]
end

/-- A source whose program, if it parses, is guarded. -/
def Guarded (source : String) : Prop :=
  ∀ p, (parse 0 (tokens source)).program = .ok p → Program.guarded p = true

/-- Whether a program is guarded does not depend on where its node ids start. -/
theorem parse_guarded {firstId : NodeId} {source : String} {p : Program} (hsource : Guarded source)
    (h : (parse firstId (tokens source)).program = .ok p) : Program.guarded p = true := by
  obtain ⟨ts, line, htokens, hplain⟩ := tokens_spec source
  rw [htokens] at h
  have heof : (Token.endOfSource line).kind = .eof := rfl
  have hp := Grammar.program_sound (fun t ht => (hplain t ht).notEnd) heof h
  obtain ⟨p₀, hp₀, heq⟩ := Grammar.program_reads 0 heof hp
  rw [← htokens] at hp₀
  calc Stmt.guardedAll false p
      _ = Stmt.guardedAll false (Program.eraseIds p) := (Stmt.guardedAll_mapIds _ false p).symm
      _ = Stmt.guardedAll false p₀ := by rw [← heq, Stmt.guardedAll_mapIds]
      _ = true := hsource p₀ hp₀

end Scriptlet
