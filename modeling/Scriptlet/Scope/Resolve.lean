import Scriptlet.Scope.Distance

/-!
# Resolving names

`resolve` walks a program once, in the order of its text, with the stack of the scopes that enclose
the current point.  It files the distance of every reference to a local name and collects the
violations of the static rules; the walk always covers the whole program.

Static rules: no `return` outside functions, no `return` with a value in an initializer, no `this`
outside classes, no name declared twice in a local scope, no local variable read in its own
initializer.  The global scope is not on the stack: names declared there are not tracked.
-/

set_option autoImplicit false

namespace Scriptlet

/-- What kind of function encloses a point of the program. -/
inductive FunctionKind where
  | none
  | function
  | method
  | initializer
  deriving DecidableEq, Repr

/-- The kind of a method with the given name. -/
def FunctionKind.ofMethod (name : String) : FunctionKind :=
  if name = constructorName then .initializer else .method

/-- What encloses a point of the program, scopes apart. -/
structure Site where
  function : FunctionKind
  inClass : Bool
  deriving DecidableEq, Repr

/-- A broken static rule. -/
inductive StaticFault where
  | topLevelReturn
  | initializerReturn
  | thisOutsideClass
  | redeclared
  | readInOwnInitializer
  deriving DecidableEq, Repr

/-- The wording of a broken static rule. -/
def StaticFault.message : StaticFault → String
  | topLevelReturn => "Can't return from top-level code."
  | initializerReturn => "Can't return a value from an initializer."
  | thisOutsideClass => "Can't use 'this' outside of a class."
  | redeclared => "Already a variable with this name in this scope."
  | readInOwnInitializer => "Can't read local variable in its own initializer."

/-- A broken static rule and where it is broken. -/
structure ResolveError where
  line : Nat
  lexeme : String
  fault : StaticFault
  deriving DecidableEq, Repr

/-- The names of a scope, the latest entry first.  The mark tells whether the declaration is
complete, so that the name may be read. -/
abbrev NameScope := List (String × Bool)

/-- Whether a scope declares a name. -/
def NameScope.declares (scope : NameScope) (name : String) : Bool := (scope.lookup name).isSome

/-- The state of the walk. -/
structure Resolution where
  /-- The local scopes around the current point, the innermost first. -/
  scopes : List NameScope
  table : DistanceTable
  /-- The errors so far, in the order of their report. -/
  errors : List ResolveError

namespace Resolution

/-- Records an error. -/
def report (st : Resolution) (line : Nat) (lexeme : String) (fault : StaticFault) : Resolution :=
  { st with errors := st.errors ++ [⟨line, lexeme, fault⟩] }

/-- Enters a scope. -/
def enter (st : Resolution) (scope : NameScope) : Resolution := { st with scopes := scope :: st.scopes }

/-- Leaves the innermost scope. -/
def leave (st : Resolution) : Resolution := { st with scopes := st.scopes.tail }

/-- Enters a name into the innermost scope, if there is one. -/
def mark (st : Resolution) (name : String) (complete : Bool) : Resolution :=
  match st.scopes with
  | [] => st
  | scope :: outer => { st with scopes := ((name, complete) :: scope) :: outer }

/-- Begins a declaration. -/
def declare (st : Resolution) (name : Ident) : Resolution :=
  let taken := st.scopes.head?.any (·.declares name.name)
  let st := if taken then st.report name.line name.name .redeclared else st
  st.mark name.name false

/-- Completes a declaration. -/
def define (st : Resolution) (name : Ident) : Resolution := st.mark name.name true

/-- Begins and completes a declaration. -/
def introduce (st : Resolution) (name : Ident) : Resolution := (st.declare name).define name

/-- Whether a name is being declared in the innermost scope. -/
def isPending (st : Resolution) (name : String) : Bool :=
  st.scopes.head?.any fun scope => scope.lookup name == some false

/-- Files the distance of a reference to the innermost scope that declares the name. -/
def refer (st : Resolution) (id : NodeId) (name : String) : Resolution :=
  match st.scopes.findIdx? (·.declares name) with
  | some distance => { st with table := st.table.file id distance }
  | none => st

end Resolution

mutual
/-- Resolves an expression. -/
def Expr.resolve (site : Site) : Expr → Resolution → Resolution
  | .lit _, st => st
  | .group inner, st => inner.resolve site st
  | .unary _ operand, st => operand.resolve site st
  | .binary _ left right, st => st |> left.resolve site |> right.resolve site
  | .logical _ left right, st => st |> left.resolve site |> right.resolve site
  | .ternary test whenTrue whenFalse, st =>
      st |> test.resolve site |> whenTrue.resolve site |> whenFalse.resolve site
  | .var id name, st =>
      let st := if st.isPending name.name then st.report name.line name.name .readInOwnInitializer else st
      st.refer id name.name
  | .assign id name value, st => (value.resolve site st).refer id name.name
  | .update id name _ operand, st => (operand.resolve site st).refer id name.name
  | .this id line, st =>
      if site.inClass then st.refer id thisName else st.report line thisName .thisOutsideClass
  | .array items, st => Expr.resolveAll site items st
  | .index target _ position, st => st |> target.resolve site |> position.resolve site
  | .call callee _ args, st => st |> callee.resolve site |> Expr.resolveAll site args
  | .get object _, st => object.resolve site st
  | .set object _ value, st => st |> value.resolve site |> object.resolve site
/-- Resolves expressions from left to right. -/
def Expr.resolveAll (site : Site) : List Expr → Resolution → Resolution
  | [], st => st
  | e :: rest, st => st |> e.resolve site |> Expr.resolveAll site rest
end

/-- Checks a `return` statement. -/
def Resolution.checkReturn (site : Site) (line : Nat) (hasValue : Bool) (st : Resolution) : Resolution :=
  let st := if site.function = .none then st.report line "return" .topLevelReturn else st
  if hasValue ∧ site.function = .initializer then st.report line "return" .initializerReturn else st

mutual
/-- Resolves a statement. -/
def Stmt.resolve (site : Site) : Stmt → Resolution → Resolution
  | .expr e, st => e.resolve site st
  | .print e, st => e.resolve site st
  | .var name none, st => st.introduce name
  | .var name (some init), st => (init.resolve site (st.declare name)).define name
  | .block body, st => (Stmt.resolveAll site body (st.enter [])).leave
  | .ifElse test whenTrue none, st => st |> test.resolve site |> whenTrue.resolve site
  | .ifElse test whenTrue (some whenFalse), st =>
      st |> test.resolve site |> whenTrue.resolve site |> whenFalse.resolve site
  | .whileLoop test body, st => st |> test.resolve site |> body.resolve site
  | .function decl, st => decl.resolve ⟨.function, site.inClass⟩ (st.introduce decl.name)
  | .classDecl name methods, st =>
      (FunctionDecl.resolveMethods methods ((st.introduce name).enter [(thisName, true)])).leave
  | .ret line none, st => st.checkReturn site line false
  | .ret line (some value), st => value.resolve site (st.checkReturn site line true)
/-- Resolves statements in order. -/
def Stmt.resolveAll (site : Site) : List Stmt → Resolution → Resolution
  | [], st => st
  | s :: rest, st => st |> s.resolve site |> Stmt.resolveAll site rest
/-- Resolves a function; its parameters and its body share a scope. -/
def FunctionDecl.resolve (site : Site) : FunctionDecl → Resolution → Resolution
  | .mk _ params body, st =>
      (Stmt.resolveAll site body (params.foldl Resolution.introduce (st.enter []))).leave
/-- Resolves the methods of a class. -/
def FunctionDecl.resolveMethods : List FunctionDecl → Resolution → Resolution
  | [], st => st
  | m :: rest, st =>
      st |> m.resolve ⟨.ofMethod m.name.name, true⟩ |> FunctionDecl.resolveMethods rest
end

/-- The outcome of resolving a program. -/
structure Resolved where
  table : DistanceTable
  errors : List ResolveError

/-- Resolves a program, adding its distances to a table. -/
def resolve (table : DistanceTable) (program : Program) : Resolved :=
  let st := Stmt.resolveAll ⟨.none, false⟩ program ⟨[], table, []⟩
  ⟨st.table, st.errors⟩

end Scriptlet
