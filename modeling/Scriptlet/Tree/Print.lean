import Scriptlet.Tree.Basic

/-!
# The printed form of a program

Expressions and statements are written as parenthesised lists, operator first; `Program.text` puts
the top-level statements on lines of their own.  Node ids and lines are not shown.
-/

set_option autoImplicit false

namespace Scriptlet

/-- A literal; strings stand between quotes, as they are. -/
def Literal.text : Literal → String
  | null => "null"
  | bool true => "true"
  | bool false => "false"
  | number x => Number.literalStyle.text x
  | string s => "\"" ++ s ++ "\""

/-- Words between parentheses, one blank apart. -/
def parenthesised (words : List String) : String := "(" ++ " ".intercalate words ++ ")"

mutual
/-- The printed form of an expression. -/
def Expr.text : Expr → String
  | .lit value => value.text
  | .group inner => parenthesised ["group", inner.text]
  | .unary op operand => parenthesised [op.lexeme, operand.text]
  | .binary op left right => parenthesised [op.lexeme, left.text, right.text]
  | .logical op left right => parenthesised [op.lexeme, left.text, right.text]
  | .ternary test whenTrue whenFalse =>
      parenthesised ["?:", test.text, whenTrue.text, whenFalse.text]
  | .var _ name => name.name
  | .assign _ name value => parenthesised ["=", name.name, value.text]
  | .update _ name op operand => parenthesised [op.lexeme, name.name, operand.text]
  | .this _ _ => "this"
  | .array items => "[" ++ ", ".intercalate (Expr.texts items) ++ "]"
  | .index target _ position => parenthesised ["index", target.text, position.text]
  | .call callee _ args => parenthesised ("call" :: callee.text :: Expr.texts args)
  | .get object name => parenthesised [".", object.text, name.name]
  | .set object name value => parenthesised [".=", object.text, name.name, value.text]
/-- The printed forms of a list of expressions. -/
def Expr.texts : List Expr → List String
  | [] => []
  | e :: rest => e.text :: Expr.texts rest
end

mutual
/-- The printed form of a statement. -/
def Stmt.text : Stmt → String
  | .expr e => parenthesised [";", e.text]
  | .print e => parenthesised ["print", e.text]
  | .var name none => parenthesised ["var", name.name]
  | .var name (some init) => parenthesised ["var", name.name, init.text]
  | .block body => parenthesised ("block" :: Stmt.texts body)
  | .ifElse test whenTrue none => parenthesised ["if", test.text, whenTrue.text]
  | .ifElse test whenTrue (some whenFalse) =>
      parenthesised ["if", test.text, whenTrue.text, whenFalse.text]
  | .whileLoop test body => parenthesised ["while", test.text, body.text]
  | .function decl => decl.text "function"
  | .classDecl name methods =>
      parenthesised ("class" :: name.name :: FunctionDecl.texts "method" methods)
  | .ret _ none => parenthesised ["return"]
  | .ret _ (some value) => parenthesised ["return", value.text]
/-- The printed forms of a list of statements. -/
def Stmt.texts : List Stmt → List String
  | [] => []
  | s :: rest => s.text :: Stmt.texts rest
/-- The printed form of a function or method, after the given word. -/
def FunctionDecl.text (word : String) : FunctionDecl → String
  | .mk name params body =>
      parenthesised (word :: name.name :: parenthesised (params.map Ident.name) :: Stmt.texts body)
/-- The printed forms of a list of functions. -/
def FunctionDecl.texts (word : String) : List FunctionDecl → List String
  | [] => []
  | d :: rest => d.text word :: FunctionDecl.texts word rest
end

/-- The printed form of a program. -/
def Program.text (program : Program) : String := "\n".intercalate (Stmt.texts program)

end Scriptlet
