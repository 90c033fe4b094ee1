import Scriptlet.Tree.Reader

/-!
# Parsing

The grammar, by recursive descent:

    program     = declaration* end
    declaration = "var" variable | statement
    variable    = NAME ("=" expression)? ";"
    statement   = "class" NAME "{" callable* "}" | "function" callable | "return" expression? ";"
                | "if" "(" expression ")" statement ("else" statement)?
                | "for" "(" (";" | "var" variable | expression ";") expression? ";" expression? ")" statement
                | "while" "(" expression ")" statement | "print" expression ";"
                | "{" block | expression ";"
    block       = declaration* "}"
    callable    = NAME "(" (NAME ("," NAME)*)? ")" "{" block
    expression  = ternary (("=" | "+=" | "-=" | "*=" | "/=" | "%=") expression | "++" | "--")?
    ternary     = logical ("?" expression ":" expression)?
    logical … factor: the left-associative levels of `Level`, over unary
    unary       = ("!" | "-") unary | call
    call        = primary ("(" arguments? ")" | "." NAME | "[" expression "]")*
    primary     = NUMBER | STRING | "true" | "false" | "null" | "this" | NAME
                | "(" expression ")" | "[" arguments? "]"
    arguments   = expression ("," expression)*

A declaration that fails is dropped and its error recorded; reading resumes at `synchronize`.  A bad
assignment target and an overlong list are recorded without stopping.

Every function takes the depth it may recurse to.  Sixteen steps into the grammar consume a token, so
`parseDepth` is more than any list of tokens needs.
-/

set_option autoImplicit false

namespace Scriptlet

/-- The greatest number of parameters, and of arguments. -/
def maxArity : Nat := 255

/-- The levels of left-associative operators, the loosest first. -/
inductive Level where
  | logical | equality | comparison | term | factor
  deriving DecidableEq, Repr

namespace Level

/-- The operators of a level. -/
def isOperator : Level → TokenKind → Bool
  | logical, .kwAnd | logical, .kwOr => true
  | equality, .bangEqual | equality, .equalEqual => true
  | comparison, .greater | comparison, .greaterEqual => true
  | comparison, .less | comparison, .lessEqual => true
  | term, .minus | term, .plus => true
  | factor, .star | factor, .slash | factor, .percent => true
  | _, _ => false

/-- The node of an operator of a level. -/
def node : Level → Token → Expr → Expr → Expr
  | logical => .logical
  | _ => .binary

/-- The level of the operands, `none` for unary expressions. -/
def tighter : Level → Option Level
  | logical => some equality
  | equality => some comparison
  | comparison => some term
  | term => some factor
  | factor => none

end Level

/-- The operators of unary expressions. -/
def isUnaryOperator : TokenKind → Bool
  | .bang | .minus => true
  | _ => false

/-- The compound assignment operators. -/
def isCompoundAssign : TokenKind → Bool
  | .plusEqual | .minusEqual | .starEqual | .slashEqual | .percentEqual => true
  | _ => false

/-- The increment and decrement operators. -/
def isStep : TokenKind → Bool
  | .plusPlus | .minusMinus => true
  | _ => false

namespace Parse

/-- The node of an assignment; only variables and properties can be assigned. -/
def assignTo (target : Expr) (equals : Token) (value : Expr) : Parse Expr := do
  match target with
  | .var _ name => return .assign (← freshId) name value
  | .get object name => return .set object name value
  | other => report equals .assignmentTarget; return other

/-- The node of a compound assignment or a step; only variables can be updated. -/
def updateOf (target : Expr) (op : Token) (operand : Expr) : Parse Expr := do
  match target with
  | .var _ name => return .update (← freshId) name op operand
  | other => report op .assignmentTarget; return other

/-- The names of a parameter list, the first `count` of them already read. -/
def parameters : Nat → Nat → Parse (List Ident)
  | 0, _ => exhausted
  | depth + 1, count => do
      if maxArity ≤ count then report (← peek) .tooManyParameters
      let name ← expect .identifier .parameterName
      match ← accept? (· = .comma) with
      | some _ => return name.ident :: (← parameters depth (count + 1))
      | none => return [name.ident]

mutual
/-- An expression. -/
def expression : Nat → Parse Expr
  | 0 => exhausted
  | depth + 1 => do
      let target ← ternary depth
      match ← accept? (· = .equal) with
      | some equals => assignTo target equals (← expression depth)
      | none => match ← accept? isCompoundAssign with
        | some op => updateOf target op (← expression depth)
        | none => match ← accept? isStep with
          | some op => updateOf target op (.lit (.number 1.0))
          | none => return target
/-- A conditional expression. -/
def ternary : Nat → Parse Expr
  | 0 => exhausted
  | depth + 1 => do
      let test ← chain depth .logical
      match ← accept? (· = .question) with
      | some _ =>
          let whenTrue ← expression depth
          let _ ← expect .colon .colonInTernary
          return .ternary test whenTrue (← expression depth)
      | none => return test
/-- Operands of a level joined by its operators. -/
def chain : Nat → Level → Parse Expr
  | 0, _ => exhausted
  | depth + 1, level => do chainRest depth level (← operand depth level)
/-- More operands of a level, after the expression read so far. -/
def chainRest : Nat → Level → Expr → Parse Expr
  | 0, _, _ => exhausted
  | depth + 1, level, left => do
      match ← accept? level.isOperator with
      | some op => chainRest depth level (level.node op left (← operand depth level))
      | none => return left
/-- An operand of a level. -/
def operand : Nat → Level → Parse Expr
  | 0, _ => exhausted
  | depth + 1, level =>
      match level.tighter with
      | some tighter => chain depth tighter
      | none => unary depth
/-- A unary expression. -/
def unary : Nat → Parse Expr
  | 0 => exhausted
  | depth + 1 => do
      match ← accept? isUnaryOperator with
      | some op => return .unary op (← unary depth)
      | none => callRest depth (← primary depth)
/-- Calls, property reads and element reads, after the expression read so far. -/
def callRest : Nat → Expr → Parse Expr
  | 0, _ => exhausted
  | depth + 1, subject => do
      match (← peek).kind with
      | .leftParen =>
          skip
          let args ← if ← sees (· = .rightParen) then pure [] else arguments depth (some maxArity) 0
          let paren ← expect .rightParen .parenAfterArguments
          callRest depth (.call subject paren.line args)
      | .dot =>
          skip
          let name ← expect .identifier .propertyName
          callRest depth (.get subject name.ident)
      | .leftBracket =>
          skip
          let position ← expression depth
          let bracket ← expect .rightBracket .bracketAfterIndex
          callRest depth (.index subject bracket.line position)
      | _ => return subject
/-- Expressions between commas, the first `count` of them already read; beyond the limit, if there is
one, each expression is reported. -/
def arguments : Nat → Option Nat → Nat → Parse (List Expr)
  | 0, _, _ => exhausted
  | depth + 1, limit, count => do
      if limit.any (· ≤ count) then report (← peek) .tooManyArguments
      let first ← expression depth
      match ← accept? (· = .comma) with
      | some _ => return first :: (← arguments depth limit (count + 1))
      | none => return [first]
/-- A primary expression. -/
def primary : Nat → Parse Expr
  | 0 => exhausted
  | depth + 1 => do
      let t ← peek
      match t.kind with
      | .kwThis => skip; return .this (← freshId) t.line
      | .kwFalse => skip; return .lit (.bool false)
      | .kwTrue => skip; return .lit (.bool true)
      | .kwNull => skip; return .lit .null
      | .number x => skip; return .lit (.number x)
      | .string s => skip; return .lit (.string s)
      | .identifier => skip; return .var (← freshId) t.ident
      | .leftParen =>
          skip
          let inner ← expression depth
          let _ ← expect .rightParen .parenAfterGroup
          return .group inner
      | .leftBracket =>
          skip
          let items ← if ← sees (· = .rightBracket) then pure [] else arguments depth none 0
          let _ ← expect .rightBracket .bracketAfterArray
          return .array items
      | _ => fail .expression
end

/-- A variable declaration, after its keyword. -/
def variableDecl (depth : Nat) : Parse Stmt := do
  let name ← expect .identifier .variableName
  let init ← match ← accept? (· = .equal) with
    | some _ => some <$> expression depth
    | none => pure none
  let _ ← expect .semicolon .semicolonAfterVariable
  return .var name.ident init

/-- An expression statement. -/
def expressionStmt (depth : Nat) : Parse Stmt := do
  let e ← expression depth
  let _ ← expect .semicolon .semicolonAfterExpression
  return .expr e

/-- A print statement, after its keyword. -/
def printStmt (depth : Nat) : Parse Stmt := do
  let e ← expression depth
  let _ ← expect .semicolon .semicolonAfterPrint
  return .print e

/-- An expression, unless a token of the given kind follows. -/
def expressionUnless (depth : Nat) (kind : TokenKind) : Parse (Option Expr) := do
  if ← sees (· = kind) then return none else some <$> expression depth

/-- A return statement, after its keyword on the given line. -/
def returnStmt (depth line : Nat) : Parse Stmt := do
  let value ← expressionUnless depth .semicolon
  let _ ← expect .semicolon .semicolonAfterReturn
  return .ret line value

/-- The first clause of a `for` loop, its semicolon included. -/
def forInit (depth : Nat) : Parse (Option Stmt) := do
  match (← peek).kind with
  | .semicolon => skip; return none
  | .kwVar => skip; some <$> variableDecl depth
  | _ => some <$> expressionStmt depth

mutual
/-- A declaration; `none` stands for one that was dropped. -/
def declaration : Nat → Parse (Option Stmt)
  | 0 => exhausted
  | depth + 1 => fun st =>
      match declarationOrHalt depth st with
      | .ok s st' => .ok (some s) st'
      | .error (.mistake e) st' => .ok none (st'.recover e)
      | .error .exhausted st' => .error .exhausted st'
/-- A declaration that stops at its first mistake. -/
def declarationOrHalt : Nat → Parse Stmt
  | 0 => exhausted
  | depth + 1 => do
      match (← peek).kind with
      | .kwVar => skip; variableDecl depth
      | _ => statement depth
/-- A statement. -/
def statement : Nat → Parse Stmt
  | 0 => exhausted
  | depth + 1 => do
      let t ← peek
      match t.kind with
      | .kwClass => skip; classDecl depth
      | .kwReturn => skip; returnStmt depth t.line
      | .kwFunction => skip; .function <$> callable depth .function
      | .kwIf => skip; ifStmt depth
      | .kwFor => skip; forStmt depth
      | .kwWhile => skip; whileStmt depth
      | .kwPrint => skip; printStmt depth
      | .leftBrace => skip; .block <$> block depth
      | _ => expressionStmt depth
/-- A class declaration, after its keyword. -/
def classDecl : Nat → Parse Stmt
  | 0 => exhausted
  | depth + 1 => do
      let name ← expect .identifier .className
      let _ ← expect .leftBrace .braceBeforeClassBody
      let methods ← methodList depth
      let _ ← expect .rightBrace .braceAfterClassBody
      return .classDecl name.ident methods
/-- The methods of a class, up to its closing brace. -/
def methodList : Nat → Parse (List FunctionDecl)
  | 0 => exhausted
  | depth + 1 => do
      if ← atBraceOrEnd then return []
      let first ← callable depth .method
      return first :: (← methodList depth)
/-- A function or method: name, parameters and body. -/
def callable : Nat → DeclKind → Parse FunctionDecl
  | 0, _ => exhausted
  | depth + 1, kind => do
      let name ← expect .identifier (.declName kind)
      let _ ← expect .leftParen (.parenAfterDeclName kind)
      let params ← if ← sees (· = .rightParen) then pure [] else parameters depth 0
      let _ ← expect .rightParen .parenAfterParameters
      let _ ← expect .leftBrace (.braceBeforeDeclBody kind)
      return .mk name.ident params (← block depth)
/-- A conditional statement, after its keyword. -/
def ifStmt : Nat → Parse Stmt
  | 0 => exhausted
  | depth + 1 => do
      let _ ← expect .leftParen .parenAfterIf
      let test ← expression depth
      let _ ← expect .rightParen .parenAfterIfTest
      let whenTrue ← statement depth
      match ← accept? (· = .kwElse) with
      | some _ => return .ifElse test whenTrue (some (← statement depth))
      | none => return .ifElse test whenTrue none
/-- A `for` loop, after its keyword. -/
def forStmt : Nat → Parse Stmt
  | 0 => exhausted
  | depth + 1 => do
      let _ ← expect .leftParen .parenAfterFor
      let init ← forInit depth
      let test ← expressionUnless depth .semicolon
      let _ ← expect .semicolon .semicolonAfterLoopTest
      let step ← expressionUnless depth .rightParen
      let _ ← expect .rightParen .parenAfterForClauses
      return .forLoop init test step (← statement depth)
/-- A `while` loop, after its keyword. -/
def whileStmt : Nat → Parse Stmt
  | 0 => exhausted
  | depth + 1 => do
      let _ ← expect .leftParen .parenAfterWhile
      let test ← expression depth
      let _ ← expect .rightParen .parenAfterWhileTest
      return .whileLoop test (← statement depth)
/-- The statements of a block, after its opening brace, and its closing brace. -/
def block : Nat → Parse (List Stmt)
  | 0 => exhausted
  | depth + 1 => do
      if ← atBraceOrEnd then
        let _ ← expect .rightBrace .braceAfterBlock
        return []
      let first ← declaration depth
      return first.toList ++ (← block depth)
end

/-- The declarations of a program. -/
def declarations : Nat → Parse Program
  | 0 => exhausted
  | depth + 1 => do
      if ← atEnd then return []
      let first ← declaration depth
      return first.toList ++ (← declarations depth)

end Parse

/-- The outcome of parsing: the program or the errors, and the next free node id. -/
structure Parsed where
  program : Except (List ParseError) Program
  nextId : NodeId

/-- A recursion depth that no list of `count` tokens uses up. -/
def parseDepth (count : Nat) : Nat := 16 * (count + 2)

/-- Parses a list of tokens that ends with an end token.  The node ids start at `firstId`; ids of
dropped nodes are not handed out again. -/
def parse (firstId : NodeId) (tokens : List Token) : Parsed :=
  match Parse.declarations (parseDepth tokens.length) ⟨tokens, firstId, []⟩ with
  | .ok program st => ⟨if st.errors.isEmpty then .ok program else .error st.errors, st.nextId⟩
  | .error _ st => ⟨.error st.errors, st.nextId⟩

end Scriptlet
