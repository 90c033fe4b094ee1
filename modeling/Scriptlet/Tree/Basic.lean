import Scriptlet.Token.Basic

/-!
# Program trees

A program is a list of statements.  Nodes that refer to a name (`Expr.var`, `assign`, `update`,
`this`) carry an id, under which the scope distance of the reference is filed.  Operators are kept as
the tokens they were written with: an operator no rule knows fails when it is evaluated, with its own
spelling in the message.
-/

set_option autoImplicit false

namespace Scriptlet

/-- The method that initializes a new instance. -/
def constructorName : String := "constructor"

/-- The name under which a method finds its instance. -/
def thisName : String := "this"

/-- The id of a node that refers to a name. -/
abbrev NodeId := Nat

/-- A name and the line it stands on. -/
structure Ident where
  name : String
  line : Nat
  deriving DecidableEq, Repr

/-- The name written by a token. -/
def Token.ident (t : Token) : Ident := ⟨t.lexeme, t.line⟩

/-- A constant of the language. -/
inductive Literal where
  | null
  | bool (b : Bool)
  | number (x : Float)
  | string (s : String)
  deriving DecidableEq, Repr

/-- Expressions. -/
inductive Expr where
  | lit (value : Literal)
  | group (inner : Expr)
  | unary (op : Token) (operand : Expr)
  | binary (op : Token) (left right : Expr)
  | logical (op : Token) (left right : Expr)
  | ternary (test whenTrue whenFalse : Expr)
  | var (id : NodeId) (name : Ident)
  | assign (id : NodeId) (name : Ident) (value : Expr)
  /-- Compound assignment, increment and decrement; the last two have the operand `1`. -/
  | update (id : NodeId) (name : Ident) (op : Token) (operand : Expr)
  | this (id : NodeId) (line : Nat)
  | array (items : List Expr)
  /-- Element access; the line is that of the closing bracket. -/
  | index (target : Expr) (line : Nat) (position : Expr)
  /-- A call; the line is that of the closing parenthesis. -/
  | call (callee : Expr) (line : Nat) (args : List Expr)
  | get (object : Expr) (name : Ident)
  | set (object : Expr) (name : Ident) (value : Expr)
  deriving Repr

mutual
/-- Statements. -/
inductive Stmt where
  | expr (e : Expr)
  | print (e : Expr)
  | var (name : Ident) (init : Option Expr)
  | block (body : List Stmt)
  | ifElse (test : Expr) (whenTrue : Stmt) (whenFalse : Option Stmt)
  | whileLoop (test : Expr) (body : Stmt)
  | function (decl : FunctionDecl)
  | classDecl (name : Ident) (methods : List FunctionDecl)
  /-- The line is that of the keyword. -/
  | ret (line : Nat) (value : Option Expr)
/-- The declaration of a function or method. -/
inductive FunctionDecl where
  | mk (name : Ident) (params : List Ident) (body : List Stmt)
end

namespace FunctionDecl

/-- The declared name. -/
def name : FunctionDecl → Ident
  | mk name _ _ => name

/-- The parameters. -/
def params : FunctionDecl → List Ident
  | mk _ params _ => params

/-- The statements of the body. -/
def body : FunctionDecl → List Stmt
  | mk _ _ body => body

/-- The number of parameters. -/
def arity (d : FunctionDecl) : Nat := d.params.length

end FunctionDecl

/-- A program. -/
abbrev Program := List Stmt

/-- The tree of a `for` loop: a `while` loop whose body is followed by the increment, in a scope of
its own that holds the initializer.  A missing condition is true. -/
def Stmt.forLoop (init : Option Stmt) (test step : Option Expr) (body : Stmt) : Stmt :=
  let stepped := match step with
    | some e => .block [body, .expr e]
    | none => body
  let loop := .whileLoop (test.getD (.lit (.bool true))) stepped
  match init with
  | some s => .block [s, loop]
  | none => loop

end Scriptlet
