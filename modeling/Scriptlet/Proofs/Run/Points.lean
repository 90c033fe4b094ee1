import Scriptlet.Run.Evaluate
import Scriptlet.Proofs.Tree.Nodes

/-!
# Points of a run

A run evaluates a tree of tasks.  A `Point` is a task about to be carried out, with the machine it finds and
the steps it may take.

* `Point.Calls P Q` — carrying out `P` starts with the task of `Q` or comes to it after the tasks before it
  ended well.
* `Point.Visits P Q` — `Q` is a point of the run that starts at `P`.
* `Point.Declares P name` — the run from `P` comes to a declaration of the name at top level.
-/

set_option autoImplicit false

namespace Scriptlet

/-- The machine that an action leaves, whether or not it ends well. -/
def Exec.leaves {α : Type} (x : Exec α) (m : Machine) : Machine :=
  match x m with
  | .ok _ m' => m'
  | .error _ m' => m'

/-- What the evaluator is asked to do; access to a name is a task of its own. -/
inductive Task where
  | eval (e : Expr)
  | evalAll (es : List Expr)
  | lookUp (id : NodeId) (name : Ident)
  | assign (id : NodeId) (name : Ident) (value : Value)
  | call (callee : Value) (args : List Value) (line : Nat)
  | callWith (callee : Value) (args : List Value) (line : Nat)
  | invoke (f : Function) (args : List Value)
  | readThis (closure : ScopeId)
  | exec (s : Stmt)
  | execAll (ss : List Stmt)
  | loop (test : Expr) (body : Stmt)
  | top (p : Program)

/-- A task, the machine it finds and the steps it may take. -/
structure Point where
  steps : Nat
  task : Task
  machine : Machine

namespace Point

/-- The tasks that a task is made of. -/
inductive Calls : Point → Point → Prop where
  | group {steps : Nat} {m : Machine} {inner : Expr} :
      Calls ⟨steps + 1, .eval (.group inner), m⟩ ⟨steps, .eval inner, m⟩
  | unary {steps : Nat} {m : Machine} {op : Token} {operand : Expr} :
      Calls ⟨steps + 1, .eval (.unary op operand), m⟩ ⟨steps, .eval operand, m⟩
  | binaryLeft {steps : Nat} {m : Machine} {op : Token} {left right : Expr} :
      Calls ⟨steps + 1, .eval (.binary op left right), m⟩ ⟨steps, .eval left, m⟩
  | binaryRight {steps : Nat} {m m₁ : Machine} {op : Token} {left right : Expr} {a : Value} :
      evaluate steps left m = .ok a m₁ →
      Calls ⟨steps + 1, .eval (.binary op left right), m⟩ ⟨steps, .eval right, m₁⟩
  | logicalLeft {steps : Nat} {m : Machine} {op : Token} {left right : Expr} :
      Calls ⟨steps + 1, .eval (.logical op left right), m⟩ ⟨steps, .eval left, m⟩
  | logicalRight {steps : Nat} {m m₁ : Machine} {op : Token} {left right : Expr} {a : Value} :
      evaluate steps left m = .ok a m₁ →
      Calls ⟨steps + 1, .eval (.logical op left right), m⟩ ⟨steps, .eval right, m₁⟩
  | ternaryTest {steps : Nat} {m : Machine} {test whenTrue whenFalse : Expr} :
      Calls ⟨steps + 1, .eval (.ternary test whenTrue whenFalse), m⟩ ⟨steps, .eval test, m⟩
  | ternaryTrue {steps : Nat} {m m₁ : Machine} {test whenTrue whenFalse : Expr} {a : Value} :
      evaluate steps test m = .ok a m₁ → a.isTruthy = true →
      Calls ⟨steps + 1, .eval (.ternary test whenTrue whenFalse), m⟩ ⟨steps, .eval whenTrue, m₁⟩
  | ternaryFalse {steps : Nat} {m m₁ : Machine} {test whenTrue whenFalse : Expr} {a : Value} :
      evaluate steps test m = .ok a m₁ → a.isTruthy = false →
      Calls ⟨steps + 1, .eval (.ternary test whenTrue whenFalse), m⟩ ⟨steps, .eval whenFalse, m₁⟩
  | var {steps : Nat} {m : Machine} {id : NodeId} {name : Ident} :
      Calls ⟨steps + 1, .eval (.var id name), m⟩ ⟨steps, .lookUp id name, m⟩
  | this {steps : Nat} {m : Machine} {id : NodeId} {line : Nat} :
      Calls ⟨steps + 1, .eval (.this id line), m⟩ ⟨steps, .lookUp id ⟨thisName, line⟩, m⟩
  | assignValue {steps : Nat} {m : Machine} {id : NodeId} {name : Ident} {value : Expr} :
      Calls ⟨steps + 1, .eval (.assign id name value), m⟩ ⟨steps, .eval value, m⟩
  | assign {steps : Nat} {m m₁ : Machine} {id : NodeId} {name : Ident} {value : Expr} {a : Value} :
      evaluate steps value m = .ok a m₁ →
      Calls ⟨steps + 1, .eval (.assign id name value), m⟩ ⟨steps, .assign id name a, m₁⟩
  | updateOperand {steps : Nat} {m : Machine} {id : NodeId} {name : Ident} {op : Token}
      {operand : Expr} :
      Calls ⟨steps + 1, .eval (.update id name op operand), m⟩ ⟨steps, .eval operand, m⟩
  | updateOld {steps : Nat} {m m₁ : Machine} {id : NodeId} {name : Ident} {op : Token}
      {operand : Expr} {a : Value} :
      evaluate steps operand m = .ok a m₁ →
      Calls ⟨steps + 1, .eval (.update id name op operand), m⟩ ⟨steps, .lookUp id name, m₁⟩
  | updateNew {steps : Nat} {m m₁ m₂ : Machine} {id : NodeId} {name : Ident} {op : Token}
      {operand : Expr} {a old new : Value} :
      evaluate steps operand m = .ok a m₁ → Exec.lookUp id name m₁ = .ok old m₂ →
      applyBinary m₂.heap (updateKind op.kind) op.lexeme old a = .ok new →
      Calls ⟨steps + 1, .eval (.update id name op operand), m⟩ ⟨steps, .assign id name new, m₂⟩
  | array {steps : Nat} {m : Machine} {items : List Expr} :
      Calls ⟨steps + 1, .eval (.array items), m⟩ ⟨steps, .evalAll items, m⟩
  | indexPosition {steps : Nat} {m : Machine} {target position : Expr} {line : Nat} :
      Calls ⟨steps + 1, .eval (.index target line position), m⟩ ⟨steps, .eval position, m⟩
  | indexTarget {steps : Nat} {m m₁ : Machine} {target position : Expr} {line : Nat} {a : Value} :
      evaluate steps position m = .ok a m₁ →
      Calls ⟨steps + 1, .eval (.index target line position), m⟩ ⟨steps, .eval target, m₁⟩
  | callee {steps : Nat} {m : Machine} {callee : Expr} {line : Nat} {args : List Expr} :
      Calls ⟨steps + 1, .eval (.call callee line args), m⟩ ⟨steps, .eval callee, m⟩
  | arguments {steps : Nat} {m m₁ : Machine} {callee : Expr} {line : Nat} {args : List Expr}
      {f : Value} :
      evaluate steps callee m = .ok f m₁ →
      Calls ⟨steps + 1, .eval (.call callee line args), m⟩ ⟨steps, .evalAll args, m₁⟩
  | call {steps : Nat} {m m₁ m₂ : Machine} {callee : Expr} {line : Nat} {args : List Expr}
      {f : Value} {values : List Value} :
      evaluate steps callee m = .ok f m₁ → evaluateAll steps args m₁ = .ok values m₂ →
      Calls ⟨steps + 1, .eval (.call callee line args), m⟩ ⟨steps, .call f values line, m₂⟩
  | get {steps : Nat} {m : Machine} {object : Expr} {name : Ident} :
      Calls ⟨steps + 1, .eval (.get object name), m⟩ ⟨steps, .eval object, m⟩
  | setObject {steps : Nat} {m : Machine} {object value : Expr} {name : Ident} :
      Calls ⟨steps + 1, .eval (.set object name value), m⟩ ⟨steps, .eval object, m⟩
  | setValue {steps : Nat} {m m₁ : Machine} {object value : Expr} {name : Ident} {id : ObjectId} :
      evaluate steps object m = .ok (.object id) m₁ →
      Calls ⟨steps + 1, .eval (.set object name value), m⟩ ⟨steps, .eval value, m₁⟩
  | firstValue {steps : Nat} {m : Machine} {e : Expr} {es : List Expr} :
      Calls ⟨steps + 1, .evalAll (e :: es), m⟩ ⟨steps, .eval e, m⟩
  | otherValues {steps : Nat} {m m₁ : Machine} {e : Expr} {es : List Expr} {a : Value} :
      evaluate steps e m = .ok a m₁ →
      Calls ⟨steps + 1, .evalAll (e :: es), m⟩ ⟨steps, .evalAll es, m₁⟩
  | callWith {steps : Nat} {m : Machine} {callee : Value} {args : List Value} {line : Nat} :
      m.heap.arity? callee = some args.length →
      Calls ⟨steps + 1, .call callee args line, m⟩ ⟨steps, .callWith callee args line, m⟩
  | invoke {steps : Nat} {m : Machine} {id : FunctionId} {args : List Value} {line : Nat} :
      Calls ⟨steps + 1, .callWith (.function id) args line, m⟩
        ⟨steps, .invoke (m.heap.function id) args, m⟩
  | construct {steps : Nat} {m m₁ m₂ : Machine} {id : ClassId} {args : List Value} {line : Nat}
      {object : ObjectId} {method bound : Function} :
      Exec.newObject id m = .ok object m₁ →
      (m₁.heap.cls id).method? constructorName = some method →
      Exec.bindMethod method object m₁ = .ok bound m₂ →
      Calls ⟨steps + 1, .callWith (.classRef id) args line, m⟩ ⟨steps, .invoke bound args, m₂⟩
  | body {steps : Nat} {m m₁ : Machine} {f : Function} {args : List Value} {scope : ScopeId} :
      Exec.newScope f.closure (.ofParameters f.decl.params args) m = .ok scope m₁ →
      Calls ⟨steps + 1, .invoke f args, m⟩
        ⟨steps, .execAll f.decl.body, { m₁ with current := scope }⟩
  | readThis {steps : Nat} {m m₁ m₂ : Machine} {f : Function} {args : List Value} {scope : ScopeId}
      {flow : Flow} :
      Exec.newScope f.closure (.ofParameters f.decl.params args) m = .ok scope m₁ →
      Exec.inScope scope (executeAll steps f.decl.body) m₁ = .ok flow m₂ → f.isInitializer = true →
      Calls ⟨steps + 1, .invoke f args, m⟩ ⟨steps, .readThis f.closure, m₂⟩
  | expr {steps : Nat} {m : Machine} {e : Expr} :
      Calls ⟨steps + 1, .exec (.expr e), m⟩ ⟨steps, .eval e, m⟩
  | print {steps : Nat} {m : Machine} {e : Expr} :
      Calls ⟨steps + 1, .exec (.print e), m⟩ ⟨steps, .eval e, m⟩
  | init {steps : Nat} {m : Machine} {name : Ident} {init : Expr} :
      Calls ⟨steps + 1, .exec (.var name (some init)), m⟩ ⟨steps, .eval init, m⟩
  | block {steps : Nat} {m m₁ : Machine} {body : List Stmt} {scope : ScopeId} :
      Exec.newScope m.current [] m = .ok scope m₁ →
      Calls ⟨steps + 1, .exec (.block body), m⟩ ⟨steps, .execAll body, { m₁ with current := scope }⟩
  | ifTest {steps : Nat} {m : Machine} {test : Expr} {whenTrue : Stmt} {whenFalse : Option Stmt} :
      Calls ⟨steps + 1, .exec (.ifElse test whenTrue whenFalse), m⟩ ⟨steps, .eval test, m⟩
  | ifTrue {steps : Nat} {m m₁ : Machine} {test : Expr} {whenTrue : Stmt} {whenFalse : Option Stmt}
      {a : Value} :
      evaluate steps test m = .ok a m₁ → a.isTruthy = true →
      Calls ⟨steps + 1, .exec (.ifElse test whenTrue whenFalse), m⟩ ⟨steps, .exec whenTrue, m₁⟩
  | ifFalse {steps : Nat} {m m₁ : Machine} {test : Expr} {whenTrue whenFalse : Stmt} {a : Value} :
      evaluate steps test m = .ok a m₁ → a.isTruthy = false →
      Calls ⟨steps + 1, .exec (.ifElse test whenTrue (some whenFalse)), m⟩ ⟨steps, .exec whenFalse, m₁⟩
  | whileLoop {steps : Nat} {m : Machine} {test : Expr} {body : Stmt} :
      Calls ⟨steps + 1, .exec (.whileLoop test body), m⟩ ⟨steps, .loop test body, m⟩
  | ret {steps : Nat} {m : Machine} {line : Nat} {value : Expr} :
      Calls ⟨steps + 1, .exec (.ret line (some value)), m⟩ ⟨steps, .eval value, m⟩
  | firstStmt {steps : Nat} {m : Machine} {s : Stmt} {ss : List Stmt} :
      Calls ⟨steps + 1, .execAll (s :: ss), m⟩ ⟨steps, .exec s, m⟩
  | otherStmts {steps : Nat} {m m₁ : Machine} {s : Stmt} {ss : List Stmt} :
      execute steps s m = .ok .normal m₁ →
      Calls ⟨steps + 1, .execAll (s :: ss), m⟩ ⟨steps, .execAll ss, m₁⟩
  | loopTest {steps : Nat} {m : Machine} {test : Expr} {body : Stmt} :
      Calls ⟨steps + 1, .loop test body, m⟩ ⟨steps, .eval test, m⟩
  | loopBody {steps : Nat} {m m₁ : Machine} {test : Expr} {body : Stmt} {a : Value} :
      evaluate steps test m = .ok a m₁ → a.isTruthy = true →
      Calls ⟨steps + 1, .loop test body, m⟩ ⟨steps, .exec body, m₁⟩
  | loopAgain {steps : Nat} {m m₁ m₂ : Machine} {test : Expr} {body : Stmt} {a : Value} :
      evaluate steps test m = .ok a m₁ → a.isTruthy = true →
      execute steps body m₁ = .ok .normal m₂ →
      Calls ⟨steps + 1, .loop test body, m⟩ ⟨steps, .loop test body, m₂⟩
  | topFirst {steps : Nat} {m : Machine} {s : Stmt} {ss : List Stmt} :
      Calls ⟨steps + 1, .top (s :: ss), m⟩ ⟨steps, .exec s, m⟩
  | topOthers {steps : Nat} {m m₁ : Machine} {s : Stmt} {ss : List Stmt} {flow : Flow} :
      execute steps s m = .ok flow m₁ →
      Calls ⟨steps + 1, .top (s :: ss), m⟩ ⟨steps, .top ss, m₁⟩

/-- The points of the run that starts at a point. -/
inductive Visits : Point → Point → Prop where
  | refl (P : Point) : Visits P P
  | step {P Q R : Point} : Calls P Q → Visits Q R → Visits P R

/-- The tasks of a task that is visited are visited. -/
theorem Visits.calls {P Q R : Point} (h : P.Visits Q) (hcall : Q.Calls R) : P.Visits R := by
  induction h with
  | refl P => exact .step hcall (.refl R)
  | step hfirst _ ih => exact .step hfirst (ih hcall)

end Point

/-- The name that a statement declares, if it is a declaration. -/
def Stmt.declared? : Stmt → Option String
  | .var name _ => some name.name
  | .function decl => some decl.name.name
  | .classDecl name _ => some name.name
  | _ => none

/-- The run from a point comes to a declaration of the name in the global scope. -/
def Point.Declares (P : Point) (name : String) : Prop :=
  ∃ Q s, P.Visits Q ∧ Q.task = .exec s ∧ Q.machine.current = globalScope ∧ s.declared? = some name

theorem Point.Declares.step {P Q : Point} {name : String} (hcall : P.Calls Q) (h : Q.Declares name) :
    P.Declares name := by
  obtain ⟨R, s, hv, hrest⟩ := h
  exact ⟨R, s, .step hcall hv, hrest⟩

end Scriptlet
