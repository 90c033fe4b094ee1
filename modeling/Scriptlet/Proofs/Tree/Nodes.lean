import Scriptlet.Tree.Basic

/-!
# Nodes that refer to names

* `Expr.references`, `Stmt.references` — the nodes of a tree that carry an id, each with the name it
  refers to and what it does with the name.
* `Expr.mapIds`, `Stmt.mapIds` — a tree with its ids renamed; `eraseIds` forgets them, so that two
  trees are equal up to ids when their erasures are equal.
-/

set_option autoImplicit false

namespace Scriptlet

/-- What a node does with the name it refers to. -/
inductive Access where
  | read
  | write
  | update
  deriving DecidableEq, Repr

/-- A node that refers to a name. -/
structure Reference where
  id : NodeId
  name : String
  access : Access
  deriving DecidableEq, Repr

mutual
/-- The references of an expression. -/
def Expr.references : Expr → List Reference
  | .lit _ => []
  | .group inner => inner.references
  | .unary _ operand => operand.references
  | .binary _ left right => left.references ++ right.references
  | .logical _ left right => left.references ++ right.references
  | .ternary test whenTrue whenFalse =>
      test.references ++ whenTrue.references ++ whenFalse.references
  | .var id name => [⟨id, name.name, .read⟩]
  | .assign id name value => ⟨id, name.name, .write⟩ :: value.references
  | .update id name _ operand => ⟨id, name.name, .update⟩ :: operand.references
  | .this id _ => [⟨id, thisName, .read⟩]
  | .array items => Expr.referencesAll items
  | .index target _ position => target.references ++ position.references
  | .call callee _ args => callee.references ++ Expr.referencesAll args
  | .get object _ => object.references
  | .set object _ value => object.references ++ value.references
/-- The references of several expressions. -/
def Expr.referencesAll : List Expr → List Reference
  | [] => []
  | e :: rest => e.references ++ Expr.referencesAll rest
end

/-- The references of an expression that may be missing. -/
def Expr.referencesOpt : Option Expr → List Reference
  | none => []
  | some e => e.references

mutual
/-- The references of a statement, those in function bodies included. -/
def Stmt.references : Stmt → List Reference
  | .expr e => e.references
  | .print e => e.references
  | .var _ init => Expr.referencesOpt init
  | .block body => Stmt.referencesAll body
  | .ifElse test whenTrue none => test.references ++ whenTrue.references
  | .ifElse test whenTrue (some whenFalse) =>
      test.references ++ whenTrue.references ++ whenFalse.references
  | .whileLoop test body => test.references ++ body.references
  | .function decl => decl.references
  | .classDecl _ methods => FunctionDecl.referencesAll methods
  | .ret _ value => Expr.referencesOpt value
/-- The references of several statements. -/
def Stmt.referencesAll : List Stmt → List Reference
  | [] => []
  | s :: rest => s.references ++ Stmt.referencesAll rest
/-- The references of a function. -/
def FunctionDecl.references : FunctionDecl → List Reference
  | .mk _ _ body => Stmt.referencesAll body
/-- The references of several functions. -/
def FunctionDecl.referencesAll : List FunctionDecl → List Reference
  | [] => []
  | d :: rest => d.references ++ FunctionDecl.referencesAll rest
end

theorem Stmt.references_forLoop (init : Option Stmt) (test step : Option Expr) (body : Stmt) :
    (Stmt.forLoop init test step body).references = Stmt.referencesAll init.toList ++
      (Expr.referencesOpt test ++ (body.references ++ Expr.referencesOpt step)) := by
  cases init <;> cases test <;> cases step <;>
    simp [Stmt.forLoop, Stmt.references, Stmt.referencesAll, Expr.referencesOpt, Expr.references]

@[simp] theorem Stmt.referencesAll_append (as bs : List Stmt) :
    Stmt.referencesAll (as ++ bs) = Stmt.referencesAll as ++ Stmt.referencesAll bs := by
  induction as with
  | nil => rfl
  | cons s as ih => simp [Stmt.referencesAll, ih]

/-- The ids of references. -/
def Reference.ids (refs : List Reference) : List NodeId := refs.map (·.id)

@[simp] theorem Reference.ids_cons (r : Reference) (refs : List Reference) :
    Reference.ids (r :: refs) = r.id :: Reference.ids refs := rfl

@[simp] theorem Reference.ids_append (as bs : List Reference) :
    Reference.ids (as ++ bs) = Reference.ids as ++ Reference.ids bs :=
  List.map_append

theorem Reference.mem_ids {refs : List Reference} {r : Reference} (h : r ∈ refs) :
    r.id ∈ Reference.ids refs :=
  List.mem_map_of_mem h

/-! ## Renaming ids -/

mutual
/-- An expression with its ids renamed. -/
def Expr.mapIds (f : NodeId → NodeId) : Expr → Expr
  | .lit value => .lit value
  | .group inner => .group (inner.mapIds f)
  | .unary op operand => .unary op (operand.mapIds f)
  | .binary op left right => .binary op (left.mapIds f) (right.mapIds f)
  | .logical op left right => .logical op (left.mapIds f) (right.mapIds f)
  | .ternary test whenTrue whenFalse =>
      .ternary (test.mapIds f) (whenTrue.mapIds f) (whenFalse.mapIds f)
  | .var id name => .var (f id) name
  | .assign id name value => .assign (f id) name (value.mapIds f)
  | .update id name op operand => .update (f id) name op (operand.mapIds f)
  | .this id line => .this (f id) line
  | .array items => .array (Expr.mapIdsAll f items)
  | .index target line position => .index (target.mapIds f) line (position.mapIds f)
  | .call callee line args => .call (callee.mapIds f) line (Expr.mapIdsAll f args)
  | .get object name => .get (object.mapIds f) name
  | .set object name value => .set (object.mapIds f) name (value.mapIds f)
/-- Expressions with their ids renamed. -/
def Expr.mapIdsAll (f : NodeId → NodeId) : List Expr → List Expr
  | [] => []
  | e :: rest => e.mapIds f :: Expr.mapIdsAll f rest
end

mutual
/-- A statement with its ids renamed. -/
def Stmt.mapIds (f : NodeId → NodeId) : Stmt → Stmt
  | .expr e => .expr (e.mapIds f)
  | .print e => .print (e.mapIds f)
  | .var name init => .var name (init.map (Expr.mapIds f))
  | .block body => .block (Stmt.mapIdsAll f body)
  | .ifElse test whenTrue none => .ifElse (test.mapIds f) (whenTrue.mapIds f) none
  | .ifElse test whenTrue (some whenFalse) =>
      .ifElse (test.mapIds f) (whenTrue.mapIds f) (some (whenFalse.mapIds f))
  | .whileLoop test body => .whileLoop (test.mapIds f) (body.mapIds f)
  | .function decl => .function (decl.mapIds f)
  | .classDecl name methods => .classDecl name (FunctionDecl.mapIdsAll f methods)
  | .ret line value => .ret line (value.map (Expr.mapIds f))
/-- Statements with their ids renamed. -/
def Stmt.mapIdsAll (f : NodeId → NodeId) : List Stmt → List Stmt
  | [] => []
  | s :: rest => s.mapIds f :: Stmt.mapIdsAll f rest
/-- A function with its ids renamed. -/
def FunctionDecl.mapIds (f : NodeId → NodeId) : FunctionDecl → FunctionDecl
  | .mk name params body => .mk name params (Stmt.mapIdsAll f body)
/-- Functions with their ids renamed. -/
def FunctionDecl.mapIdsAll (f : NodeId → NodeId) : List FunctionDecl → List FunctionDecl
  | [] => []
  | d :: rest => d.mapIds f :: FunctionDecl.mapIdsAll f rest
end

/-- An expression without its ids. -/
abbrev Expr.eraseIds (e : Expr) : Expr := e.mapIds fun _ => 0

/-- A statement without its ids. -/
abbrev Stmt.eraseIds (s : Stmt) : Stmt := s.mapIds fun _ => 0

/-- A program without its ids. -/
abbrev Program.eraseIds (p : Program) : Program := Stmt.mapIdsAll (fun _ => 0) p

theorem Stmt.mapIds_forLoop (f : NodeId → NodeId) (init : Option Stmt) (test step : Option Expr)
    (body : Stmt) :
    (Stmt.forLoop init test step body).mapIds f = Stmt.forLoop (init.map (Stmt.mapIds f))
      (test.map (Expr.mapIds f)) (step.map (Expr.mapIds f)) (body.mapIds f) := by
  cases init <;> cases test <;> cases step <;>
    simp [Stmt.forLoop, Stmt.mapIds, Stmt.mapIdsAll, Expr.mapIds]

@[simp] theorem FunctionDecl.name_mapIds (f : NodeId → NodeId) (d : FunctionDecl) :
    (d.mapIds f).name = d.name := by
  cases d; rfl

@[simp] theorem FunctionDecl.params_mapIds (f : NodeId → NodeId) (d : FunctionDecl) :
    (d.mapIds f).params = d.params := by
  cases d; rfl

@[simp] theorem FunctionDecl.body_mapIds (f : NodeId → NodeId) (d : FunctionDecl) :
    (d.mapIds f).body = Stmt.mapIdsAll f d.body := by
  cases d; rfl

/-- A reference with its id renamed. -/
def Reference.mapId (f : NodeId → NodeId) (r : Reference) : Reference := { r with id := f r.id }

mutual
theorem Expr.references_mapIds (f : NodeId → NodeId) :
    ∀ e : Expr, (e.mapIds f).references = e.references.map (Reference.mapId f)
  | .lit _ => rfl
  | .group inner => inner.references_mapIds f
  | .unary _ operand => operand.references_mapIds f
  | .binary _ left right | .logical _ left right => by
      simp [Expr.mapIds, Expr.references, left.references_mapIds f, right.references_mapIds f]
  | .ternary test whenTrue whenFalse => by
      simp [Expr.mapIds, Expr.references, test.references_mapIds f, whenTrue.references_mapIds f,
        whenFalse.references_mapIds f]
  | .var _ _ => rfl
  | .assign _ _ value => by
      simp [Expr.mapIds, Expr.references, value.references_mapIds f, Reference.mapId]
  | .update _ _ _ operand => by
      simp [Expr.mapIds, Expr.references, operand.references_mapIds f, Reference.mapId]
  | .this _ _ => rfl
  | .array items => Expr.referencesAll_mapIds f items
  | .index target _ position => by
      simp [Expr.mapIds, Expr.references, target.references_mapIds f, position.references_mapIds f]
  | .call callee _ args => by
      simp [Expr.mapIds, Expr.references, callee.references_mapIds f, Expr.referencesAll_mapIds f args]
  | .get object _ => object.references_mapIds f
  | .set object _ value => by
      simp [Expr.mapIds, Expr.references, object.references_mapIds f, value.references_mapIds f]
theorem Expr.referencesAll_mapIds (f : NodeId → NodeId) : ∀ es : List Expr,
    Expr.referencesAll (Expr.mapIdsAll f es) = (Expr.referencesAll es).map (Reference.mapId f)
  | [] => rfl
  | e :: es => by
      simp [Expr.mapIdsAll, Expr.referencesAll, e.references_mapIds f, Expr.referencesAll_mapIds f es]
end

end Scriptlet
