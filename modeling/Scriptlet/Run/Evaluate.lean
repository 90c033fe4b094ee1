import Scriptlet.Run.Machine
import Scriptlet.Run.Operators
import Scriptlet.Scope.Resolve

/-!
# Evaluation

Expressions yield values; statements yield a `Flow`, which is how a `return` leaves the statements around it.
Every function takes a number of steps as its first argument and passes one less on; when none are left the run
ends with `Halt.exhausted`.  With more steps than a run needs, their number does not show.

`interpret` runs a program at top level and flushes the sink.
-/

set_option autoImplicit false

namespace Scriptlet

/-- How a statement ends. -/
inductive Flow where
  | normal
  | returned (value : Value)
  deriving DecidableEq, Repr

/-- Reads a property: a field, or else a method bound to the object. -/
def Exec.property (object : Value) (name : Ident) : Exec Value := do
  match object with
  | .object id =>
      match ← read fun h => (h.object id).fields.get? name.name with
      | some value => return value
      | none =>
          match ← read fun h => (h.cls (h.object id).cls).method? name.name with
          | some method => newFunction (← bindMethod method id)
          | none => fail name.line (.undefinedProperty name.name)
  | _ => fail name.line .noProperties

/-- The number of arguments a value takes in a call, `none` if it cannot be called. -/
def Heap.arity? (h : Heap) : Value → Option Nat
  | .function id => some (h.function id).arity
  | .native id => some (h.native id).arity
  | .classRef id => some (h.cls id).arity
  | _ => none

/-- The methods of a class declaration, the latest first, all closed over the scope of the declaration. -/
def methodsOf (closure : ScopeId) (decls : List FunctionDecl) : List (String × Function) :=
  decls.reverse.map fun decl =>
    (decl.name.name, ⟨decl, closure, decide (decl.name.name = constructorName)⟩)

/-- Declares a function in the current scope. -/
def Exec.declareFunction (decl : FunctionDecl) : Exec Unit := do
  let scope ← currentScope
  define decl.name.name (← newFunction ⟨decl, scope, false⟩)

/-- Declares a class in the current scope.  Its name is bound before the class is made, and then assigned. -/
def Exec.declareClass (name : Ident) (methods : List FunctionDecl) : Exec Unit := do
  define name.name .null
  let scope ← currentScope
  let cls ← newClass ⟨name.name, methodsOf scope methods⟩
  assignFrom scope name cls

open Exec in
mutual
/-- The value of an expression. -/
def evaluate : Nat → Expr → Exec Value
  | 0, _ => exhausted
  | steps + 1, e => do
      match e with
      | .lit value => return .ofLiteral value
      | .group inner => evaluate steps inner
      | .unary op operand =>
          let operand ← evaluate steps operand
          orFail op.line (applyUnary op operand)
      | .binary op left right =>
          let left ← evaluate steps left
          let right ← evaluate steps right
          orFail op.line (← read fun h => applyBinary h op.kind op.lexeme left right)
      | .logical op left right =>
          let left ← evaluate steps left
          let right ← evaluate steps right
          orFail op.line (applyLogical op left right)
      | .ternary test whenTrue whenFalse =>
          let test ← evaluate steps test
          if test.isTruthy then evaluate steps whenTrue else evaluate steps whenFalse
      | .var id name => lookUp id name
      | .assign id name value =>
          let value ← evaluate steps value
          assign id name value
          return value
      | .update id name op operand =>
          let operand ← evaluate steps operand
          let current ← lookUp id name
          let updated ← orFail op.line
            (← read fun h => applyBinary h (updateKind op.kind) op.lexeme current operand)
          assign id name updated
          return .null
      | .this id line => lookUp id ⟨thisName, line⟩
      | .array items => newArray (← evaluateAll steps items)
      | .index target line position =>
          let position ← evaluate steps position
          let target ← evaluate steps target
          orFail line (← read fun h => applyIndex h target position)
      | .call callee line args =>
          let callee ← evaluate steps callee
          let args ← evaluateAll steps args
          call steps callee args line
      | .get object name => property (← evaluate steps object) name
      | .set object name value =>
          match ← evaluate steps object with
          | .object id =>
              let value ← evaluate steps value
              change fun h => h.setField id name.name value
              return value
          | _ => fail name.line .noFields
/-- The values of expressions, from left to right. -/
def evaluateAll : Nat → List Expr → Exec (List Value)
  | 0, _ => exhausted
  | _ + 1, [] => return []
  | steps + 1, e :: rest => do
      let value ← evaluate steps e
      return value :: (← evaluateAll steps rest)
/-- Calls a value with the right number of arguments. -/
def call : Nat → Value → List Value → Nat → Exec Value
  | 0, _, _, _ => exhausted
  | steps + 1, callee, args, line => do
      match ← read fun h => h.arity? callee with
      | none => fail line .notCallable
      | some arity =>
          if args.length ≠ arity then fail line (.wrongArity arity args.length)
          else callWith steps callee args line
/-- Calls a value. -/
def callWith : Nat → Value → List Value → Nat → Exec Value
  | 0, _, _, _ => exhausted
  | steps + 1, callee, args, line => do
      match callee with
      | .native id => callNative id args line
      | .function id => invoke steps (← read fun h => h.function id) args
      | .classRef id =>
          let object ← newObject id
          match ← read fun h => (h.cls id).method? constructorName with
          | some method =>
              let bound ← bindMethod method object
              let _ ← invoke steps bound args
              return .object object
          | none => return .object object
      | _ => fail line .notCallable
/-- Runs the body of a function in a new scope that binds its parameters. -/
def invoke : Nat → Function → List Value → Exec Value
  | 0, _, _ => exhausted
  | steps + 1, f, args => do
      let scope ← newScope f.closure (.ofParameters f.decl.params args)
      let flow ← inScope scope (executeAll steps f.decl.body)
      if f.isInitializer then readAt f.closure 0 thisName
      else match flow with
        | .returned value => return value
        | .normal => return .null
/-- Executes a statement. -/
def execute : Nat → Stmt → Exec Flow
  | 0, _ => exhausted
  | steps + 1, s => do
      match s with
      | .expr e =>
          let _ ← evaluate steps e
          return .normal
      | .print e =>
          let value ← evaluate steps e
          write ((← read fun h => h.text value) ++ "\n")
          return .normal
      | .var name none =>
          define name.name .null
          return .normal
      | .var name (some init) =>
          let value ← evaluate steps init
          define name.name value
          return .normal
      | .block body =>
          let scope ← newScope (← currentScope) []
          inScope scope (executeAll steps body)
      | .ifElse test whenTrue whenFalse =>
          let test ← evaluate steps test
          if test.isTruthy then execute steps whenTrue
          else match whenFalse with
            | some whenFalse => execute steps whenFalse
            | none => return .normal
      | .whileLoop test body => loop steps test body
      | .function decl =>
          declareFunction decl
          return .normal
      | .classDecl name methods =>
          declareClass name methods
          return .normal
      | .ret _ none => return .returned .null
      | .ret _ (some value) => return .returned (← evaluate steps value)
/-- Executes statements in order, up to the first that returns. -/
def executeAll : Nat → List Stmt → Exec Flow
  | 0, _ => exhausted
  | _ + 1, [] => return .normal
  | steps + 1, s :: rest => do
      match ← execute steps s with
      | .normal => executeAll steps rest
      | .returned value => return .returned value
/-- Executes the body of a loop as long as its test holds. -/
def loop : Nat → Expr → Stmt → Exec Flow
  | 0, _, _ => exhausted
  | steps + 1, test, body => do
      let holds ← evaluate steps test
      if holds.isTruthy then
        match ← execute steps body with
        | .normal => loop steps test body
        | .returned value => return .returned value
      else return .normal
end

/-- Executes the statements of a program; at top level a `return` ends nothing. -/
def executeTop : Nat → Program → Exec Unit
  | 0, _ => Exec.exhausted
  | _ + 1, [] => return ()
  | steps + 1, s :: rest => do
      let _ ← execute steps s
      executeTop steps rest

/-- Flushes the sink at the end of a run.  A sink that cannot flush fails whatever the run's own result. -/
def Machine.finish (m : Machine) (result : Except RunError Unit) : EStateM.Result Halt Machine Unit :=
  let m := { m with current := globalScope, sink := m.sink.flush }
  let result := if m.sink.flushFails then .error (.sink .flushFailed) else result
  match result with
  | .ok () => .ok () m
  | .error e => .error (.error e) m

/-- Runs a program at top level. -/
def interpret (steps : Nat) (program : Program) : Exec Unit := fun m =>
  match executeTop steps program m with
  | .ok _ m' => m'.finish (.ok ())
  | .error (.error e) m' => m'.finish (.error e)
  | .error halt m' => .error halt m'

end Scriptlet
