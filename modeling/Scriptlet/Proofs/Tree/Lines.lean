import Scriptlet.Proofs.Tree.Nodes

/-!
# Lines in trees

* `Token.mapLine`, `Ident.mapLine` — a token or a name on another line.
* `Expr.mapLines`, `Stmt.mapLines` — a tree with its lines replaced.

Replacing lines keeps the references of a tree (`Stmt.referencesAll_mapLines`).
-/

set_option autoImplicit false

namespace Scriptlet

/-- A token on another line. -/
def Token.mapLine (f : Nat → Nat) (t : Token) : Token := { t with line := f t.line }

/-- A name on another line. -/
def Ident.mapLine (f : Nat → Nat) (name : Ident) : Ident := { name with line := f name.line }

mutual
/-- An expression with its lines replaced. -/
def Expr.mapLines (f : Nat → Nat) : Expr → Expr
  | .lit value => .lit value
  | .group inner => .group (inner.mapLines f)
  | .unary op operand => .unary (op.mapLine f) (operand.mapLines f)
  | .binary op left right => .binary (op.mapLine f) (left.mapLines f) (right.mapLines f)
  | .logical op left right => .logical (op.mapLine f) (left.mapLines f) (right.mapLines f)
  | .ternary test whenTrue whenFalse =>
      .ternary (test.mapLines f) (whenTrue.mapLines f) (whenFalse.mapLines f)
  | .var id name => .var id (name.mapLine f)
  | .assign id name value => .assign id (name.mapLine f) (value.mapLines f)
  | .update id name op operand => .update id (name.mapLine f) (op.mapLine f) (operand.mapLines f)
  | .this id line => .this id (f line)
  | .array items => .array (Expr.mapLinesAll f items)
  | .index target line position => .index (target.mapLines f) (f line) (position.mapLines f)
  | .call callee line args => .call (callee.mapLines f) (f line) (Expr.mapLinesAll f args)
  | .get object name => .get (object.mapLines f) (name.mapLine f)
  | .set object name value => .set (object.mapLines f) (name.mapLine f) (value.mapLines f)
/-- Expressions with their lines replaced. -/
def Expr.mapLinesAll (f : Nat → Nat) : List Expr → List Expr
  | [] => []
  | e :: rest => e.mapLines f :: Expr.mapLinesAll f rest
end

mutual
/-- A statement with its lines replaced. -/
def Stmt.mapLines (f : Nat → Nat) : Stmt → Stmt
  | .expr e => .expr (e.mapLines f)
  | .print e => .print (e.mapLines f)
  | .var name init => .var (name.mapLine f) (init.map (Expr.mapLines f))
  | .block body => .block (Stmt.mapLinesAll f body)
  | .ifElse test whenTrue none => .ifElse (test.mapLines f) (whenTrue.mapLines f) none
  | .ifElse test whenTrue (some whenFalse) =>
      .ifElse (test.mapLines f) (whenTrue.mapLines f) (some (whenFalse.mapLines f))
  | .whileLoop test body => .whileLoop (test.mapLines f) (body.mapLines f)
  | .function decl => .function (decl.mapLines f)
  | .classDecl name methods => .classDecl (name.mapLine f) (FunctionDecl.mapLinesAll f methods)
  | .ret line value => .ret (f line) (value.map (Expr.mapLines f))
/-- Statements with their lines replaced. -/
def Stmt.mapLinesAll (f : Nat → Nat) : List Stmt → List Stmt
  | [] => []
  | s :: rest => s.mapLines f :: Stmt.mapLinesAll f rest
/-- A function with its lines replaced. -/
def FunctionDecl.mapLines (f : Nat → Nat) : FunctionDecl → FunctionDecl
  | .mk name params body => .mk (name.mapLine f) (params.map (Ident.mapLine f)) (Stmt.mapLinesAll f body)
/-- Functions with their lines replaced. -/
def FunctionDecl.mapLinesAll (f : Nat → Nat) : List FunctionDecl → List FunctionDecl
  | [] => []
  | d :: rest => d.mapLines f :: FunctionDecl.mapLinesAll f rest
end

section Lines

variable (f : Nat → Nat)

theorem Expr.length_mapLinesAll (es : List Expr) : (Expr.mapLinesAll f es).length = es.length := by
  induction es with
  | nil => rfl
  | cons e es ih => rw [Expr.mapLinesAll, List.length_cons, List.length_cons, ih]

theorem Stmt.mapLines_forLoop (init : Option Stmt) (test step : Option Expr) (body : Stmt) :
    (Stmt.forLoop init test step body).mapLines f = Stmt.forLoop (init.map (Stmt.mapLines f))
      (test.map (Expr.mapLines f)) (step.map (Expr.mapLines f)) (body.mapLines f) := by
  cases init <;> cases test <;> cases step <;>
    simp [Stmt.forLoop, Stmt.mapLines, Stmt.mapLinesAll, Expr.mapLines]

/-! ## References -/

mutual
theorem Expr.references_mapLines : ∀ e : Expr, (e.mapLines f).references = e.references
  | .lit _ | .var _ _ | .this _ _ => rfl
  | .group inner => inner.references_mapLines
  | .unary _ operand => operand.references_mapLines
  | .binary _ left right | .logical _ left right => by
      simp only [Expr.mapLines, Expr.references, left.references_mapLines, right.references_mapLines]
  | .ternary test whenTrue whenFalse => by
      simp only [Expr.mapLines, Expr.references, test.references_mapLines, whenTrue.references_mapLines,
        whenFalse.references_mapLines]
  | .assign _ _ value => by
      simp only [Expr.mapLines, Expr.references, value.references_mapLines]
      rfl
  | .update _ _ _ operand => by
      simp only [Expr.mapLines, Expr.references, operand.references_mapLines]
      rfl
  | .array items => Expr.referencesAll_mapLines items
  | .index target _ position => by
      simp only [Expr.mapLines, Expr.references, target.references_mapLines, position.references_mapLines]
  | .call callee _ args => by
      simp only [Expr.mapLines, Expr.references, callee.references_mapLines, Expr.referencesAll_mapLines args]
  | .get object _ => object.references_mapLines
  | .set object _ value => by
      simp only [Expr.mapLines, Expr.references, object.references_mapLines, value.references_mapLines]
theorem Expr.referencesAll_mapLines : ∀ es : List Expr,
    Expr.referencesAll (Expr.mapLinesAll f es) = Expr.referencesAll es
  | [] => rfl
  | e :: es => by
      simp only [Expr.mapLinesAll, Expr.referencesAll, e.references_mapLines, Expr.referencesAll_mapLines es]
end

theorem Expr.referencesOpt_mapLines (o : Option Expr) :
    Expr.referencesOpt (o.map (Expr.mapLines f)) = Expr.referencesOpt o := by
  cases o with
  | none => rfl
  | some e => exact e.references_mapLines f

mutual
theorem Stmt.references_mapLines : ∀ s : Stmt, (s.mapLines f).references = s.references
  | .expr e | .print e => e.references_mapLines f
  | .var _ init => Expr.referencesOpt_mapLines f init
  | .block body => Stmt.referencesAll_mapLines body
  | .ifElse test whenTrue none => by
      simp only [Stmt.mapLines, Stmt.references, test.references_mapLines, whenTrue.references_mapLines]
  | .ifElse test whenTrue (some whenFalse) => by
      simp only [Stmt.mapLines, Stmt.references, test.references_mapLines, whenTrue.references_mapLines,
        whenFalse.references_mapLines]
  | .whileLoop test body => by
      simp only [Stmt.mapLines, Stmt.references, test.references_mapLines, body.references_mapLines]
  | .function decl => decl.references_mapLines
  | .classDecl _ methods => FunctionDecl.referencesAll_mapLines methods
  | .ret _ value => Expr.referencesOpt_mapLines f value
/-- **Replacing lines keeps the references of a program.** -/
theorem Stmt.referencesAll_mapLines : ∀ ss : List Stmt,
    Stmt.referencesAll (Stmt.mapLinesAll f ss) = Stmt.referencesAll ss
  | [] => rfl
  | s :: ss => by
      simp only [Stmt.mapLinesAll, Stmt.referencesAll, s.references_mapLines, Stmt.referencesAll_mapLines ss]
theorem FunctionDecl.references_mapLines : ∀ d : FunctionDecl, (d.mapLines f).references = d.references
  | .mk _ _ body => Stmt.referencesAll_mapLines body
theorem FunctionDecl.referencesAll_mapLines : ∀ ds : List FunctionDecl,
    FunctionDecl.referencesAll (FunctionDecl.mapLinesAll f ds) = FunctionDecl.referencesAll ds
  | [] => rfl
  | d :: ds => by
      simp only [FunctionDecl.mapLinesAll, FunctionDecl.referencesAll, d.references_mapLines,
        FunctionDecl.referencesAll_mapLines ds]
end

end Lines

/-! ## Lines that stay -/

theorem Token.mapLine_id (t : Token) : t.mapLine id = t := rfl

theorem Ident.mapLine_id (name : Ident) : name.mapLine id = name := rfl

mutual
theorem Expr.mapLines_id : ∀ e : Expr, e.mapLines id = e
  | .lit _ | .var _ _ | .this _ _ => rfl
  | .group inner => congrArg Expr.group inner.mapLines_id
  | .unary _ operand => congrArg (Expr.unary _) operand.mapLines_id
  | .binary _ left right | .logical _ left right => by
      simp only [Expr.mapLines, Token.mapLine_id, left.mapLines_id, right.mapLines_id]
  | .ternary test whenTrue whenFalse => by
      simp only [Expr.mapLines, test.mapLines_id, whenTrue.mapLines_id, whenFalse.mapLines_id]
  | .assign _ _ value => congrArg (Expr.assign _ _) value.mapLines_id
  | .update _ _ _ operand => congrArg (Expr.update _ _ _) operand.mapLines_id
  | .array items => congrArg Expr.array (Expr.mapLinesAll_id items)
  | .index target _ position => by
      simp only [Expr.mapLines, id_eq, target.mapLines_id, position.mapLines_id]
  | .call callee _ args => by
      simp only [Expr.mapLines, id_eq, callee.mapLines_id, Expr.mapLinesAll_id args]
  | .get object _ => congrArg (Expr.get · _) object.mapLines_id
  | .set object _ value => by
      simp only [Expr.mapLines, Ident.mapLine_id, object.mapLines_id, value.mapLines_id]
theorem Expr.mapLinesAll_id : ∀ es : List Expr, Expr.mapLinesAll id es = es
  | [] => rfl
  | e :: es => by rw [Expr.mapLinesAll, e.mapLines_id, Expr.mapLinesAll_id es]
end

theorem Expr.mapLinesOpt_id (o : Option Expr) : o.map (Expr.mapLines id) = o := by
  cases o with
  | none => rfl
  | some e => exact congrArg some e.mapLines_id

mutual
theorem Stmt.mapLines_id : ∀ s : Stmt, s.mapLines id = s
  | .expr e => congrArg Stmt.expr e.mapLines_id
  | .print e => congrArg Stmt.print e.mapLines_id
  | .var _ init => congrArg (Stmt.var _) (Expr.mapLinesOpt_id init)
  | .block body => congrArg Stmt.block (Stmt.mapLinesAll_id body)
  | .ifElse test whenTrue none => by simp only [Stmt.mapLines, test.mapLines_id, whenTrue.mapLines_id]
  | .ifElse test whenTrue (some whenFalse) => by
      simp only [Stmt.mapLines, test.mapLines_id, whenTrue.mapLines_id, whenFalse.mapLines_id]
  | .whileLoop test body => by simp only [Stmt.mapLines, test.mapLines_id, body.mapLines_id]
  | .function decl => congrArg Stmt.function decl.mapLines_id
  | .classDecl _ methods => congrArg (Stmt.classDecl _) (FunctionDecl.mapLinesAll_id methods)
  | .ret _ value => congrArg (Stmt.ret _) (Expr.mapLinesOpt_id value)
theorem Stmt.mapLinesAll_id : ∀ ss : List Stmt, Stmt.mapLinesAll id ss = ss
  | [] => rfl
  | s :: ss => by rw [Stmt.mapLinesAll, s.mapLines_id, Stmt.mapLinesAll_id ss]
theorem FunctionDecl.mapLines_id : ∀ d : FunctionDecl, d.mapLines id = d
  | .mk _ params body => by
      have hparams : params.map (Ident.mapLine id) = params := List.map_id params
      rw [FunctionDecl.mapLines, hparams, Stmt.mapLinesAll_id body, Ident.mapLine_id]
theorem FunctionDecl.mapLinesAll_id : ∀ ds : List FunctionDecl, FunctionDecl.mapLinesAll id ds = ds
  | [] => rfl
  | d :: ds => by rw [FunctionDecl.mapLinesAll, d.mapLines_id, FunctionDecl.mapLinesAll_id ds]
end

end Scriptlet
