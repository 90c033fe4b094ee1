import Scriptlet.Token.Basic

/-!
# Parse errors

`Mistake` lists what can be wrong with the order of tokens, and `Mistake.message` holds all the
wording.  A `ParseError` is a mistake at a token.
-/

set_option autoImplicit false

namespace Scriptlet

/-- What a declaration with a parameter list declares. -/
inductive DeclKind where
  | function
  | method
  deriving DecidableEq, Repr

/-- The word for a declaration. -/
def DeclKind.word : DeclKind → String
  | function => "function"
  | method => "method"

/-- What the parser missed, or will not take. -/
inductive Mistake where
  | variableName
  | semicolonAfterVariable
  | className
  | braceBeforeClassBody
  | braceAfterClassBody
  | declName (kind : DeclKind)
  | parenAfterDeclName (kind : DeclKind)
  | parameterName
  | parenAfterParameters
  | braceBeforeDeclBody (kind : DeclKind)
  | semicolonAfterReturn
  | parenAfterFor
  | semicolonAfterLoopTest
  | parenAfterForClauses
  | parenAfterWhile
  | parenAfterWhileTest
  | parenAfterIf
  | parenAfterIfTest
  | semicolonAfterPrint
  | semicolonAfterExpression
  | braceAfterBlock
  | colonInTernary
  | propertyName
  | bracketAfterIndex
  | parenAfterArguments
  | parenAfterGroup
  | bracketAfterArray
  | expression
  | assignmentTarget
  | tooManyParameters
  | tooManyArguments
  deriving DecidableEq, Repr

/-- The wording of a mistake. -/
def Mistake.message : Mistake → String
  | variableName => "Expect variable name."
  | semicolonAfterVariable => "Expect ';' after variable declaration."
  | className => "Expect class name."
  | braceBeforeClassBody => "Expect '\x7b' before class body."
  | braceAfterClassBody => "Expect '\x7d' after class body."
  | declName kind => "Expect " ++ kind.word ++ " name."
  | parenAfterDeclName kind => "Expect '(' after " ++ kind.word ++ " name."
  | parameterName => "Expect parameter name."
  | parenAfterParameters => "Expect ')' after parameters."
  | braceBeforeDeclBody kind => "Expect '\x7b' before " ++ kind.word ++ " body."
  | semicolonAfterReturn => "Expect ';' after return value."
  | parenAfterFor => "Expect '(' after 'for'."
  | semicolonAfterLoopTest => "Expect ';' after loop condition."
  | parenAfterForClauses => "Expect ')' after for clauses."
  | parenAfterWhile => "Expect '(' after 'while'."
  | parenAfterWhileTest => "Expect ')' after condition."
  | parenAfterIf => "Expect '(' after 'if'."
  | parenAfterIfTest => "Expect ')' after if condition."
  | semicolonAfterPrint => "Expect ';' after value."
  | semicolonAfterExpression => "Expect ';' after expression."
  | braceAfterBlock => "Expect '\x7d' after block."
  | colonInTernary => "Expect ':' in ternary expression."
  | propertyName => "Expect property name after '.'."
  | bracketAfterIndex => "Expect ']' after index."
  | parenAfterArguments => "Expect ')' after arguments."
  | parenAfterGroup => "Expect ')' after expression."
  | bracketAfterArray => "Expect ']' after array literal."
  | expression => "Expect expression."
  | assignmentTarget => "Invalid assignment target."
  | tooManyParameters => "Can't have more than 255 parameters."
  | tooManyArguments => "Can't have more than 255 arguments."

/-- A mistake and where it was noticed. -/
structure ParseError where
  line : Nat
  location : Location
  mistake : Mistake
  deriving DecidableEq, Repr

/-- A mistake noticed at a token. -/
def ParseError.at (t : Token) (mistake : Mistake) : ParseError := ⟨t.line, t.location, mistake⟩

end Scriptlet
