import Scriptlet.Tree.Parse

/-!
# The grammar

The grammar of programs as inference rules, apart from any way of parsing.

* `DerivesExpr s ts e` — the tokens `ts` form the expression `e` under the symbol `s`.
* `DerivesStmt nearest s ts t` — the same for statements, declarations, functions and their lists.
* `Program nearest ts p` — the tokens `ts`, without an end token, form the program `p`.

The rules are those of the extended BNF

    program     → declaration*
    declaration → "var" variable | statement
    variable    → NAME ("=" expression)? ";"
    statement   → "class" NAME "{" callable* "}" | "function" callable | "return" expression? ";"
                | "if" "(" expression ")" statement ("else" statement)?
                | "for" "(" (";" | "var" variable | expression ";") expression? ";" expression? ")" statement
                | "while" "(" expression ")" statement | "print" expression ";"
                | "{" declaration* "}" | expression ";"
    callable    → NAME "(" (NAME ("," NAME)*)? ")" "{" declaration* "}"
    expression  → ternary (("=" | "+=" | "-=" | "*=" | "/=" | "%=") expression | "++" | "--")?
    ternary     → logical ("?" expression ":" expression)?
    logical     → equality (("&&" | "||") equality)*
    equality    → comparison (("!=" | "==") comparison)*
    comparison  → term ((">" | ">=" | "<" | "<=") term)*
    term        → factor (("-" | "+") factor)*
    factor      → unary (("/" | "*" | "%") unary)*
    unary       → ("!" | "-") unary | call
    call        → primary ("(" arguments? ")" | "." NAME | "[" expression "]")*
    primary     → NUMBER | STRING | "true" | "false" | "null" | "this" | NAME
                | "(" expression ")" | "[" arguments? "]"
    arguments   → expression ("," expression)*

with three conditions: a target of `=` is a variable or a property, a target of the other assignments
is a variable, and lists of parameters and of arguments have at most 255 entries.  Node ids are left
open: a rule that makes a node with an id allows any.

As it stands the rule for `if` is ambiguous.  With `nearest` an `else` belongs to the nearest `if`: the
branch before it does not end in an `if` without `else`.  Statement symbols carry a flag for that.
-/

set_option autoImplicit false

namespace Scriptlet.Grammar

/-! ## Operators -/

/-- The operators of a level. -/
def operators : Level → List TokenKind
  | .logical => [.kwAnd, .kwOr]
  | .equality => [.bangEqual, .equalEqual]
  | .comparison => [.greater, .greaterEqual, .less, .lessEqual]
  | .term => [.minus, .plus]
  | .factor => [.slash, .star, .percent]

/-- The operators of unary expressions. -/
def unaryOperators : List TokenKind := [.bang, .minus]

/-- The compound assignment operators. -/
def compoundOperators : List TokenKind :=
  [.plusEqual, .minusEqual, .starEqual, .slashEqual, .percentEqual]

/-- Increment and decrement. -/
def stepOperators : List TokenKind := [.plusPlus, .minusMinus]

theorem isOperator_iff (level : Level) (k : TokenKind) :
    level.isOperator k = true ↔ k ∈ operators level := by
  cases level <;> cases k <;> simp [Level.isOperator, operators]

theorem isUnaryOperator_iff (k : TokenKind) : isUnaryOperator k = true ↔ k ∈ unaryOperators := by
  cases k <;> simp [isUnaryOperator, unaryOperators]

theorem isCompoundAssign_iff (k : TokenKind) :
    isCompoundAssign k = true ↔ k ∈ compoundOperators := by
  cases k <;> simp [isCompoundAssign, compoundOperators]

theorem isStep_iff (k : TokenKind) : isStep k = true ↔ k ∈ stepOperators := by
  cases k <;> simp [isStep, stepOperators]

/-! ## Expressions -/

/-- The symbols of expressions. -/
inductive ExprSymbol where
  | expression
  | ternary
  | binary (level : Level)
  | operand (level : Level)
  | unary
  | call
  | primary
  | arguments
  deriving DecidableEq, Repr

/-- What is derived under a symbol. -/
@[reducible] def ExprSymbol.Tree : ExprSymbol → Type
  | arguments => List Expr
  | _ => Expr

/-- The expressions and the token lists that form them. -/
inductive DerivesExpr : (s : ExprSymbol) → List Token → s.Tree → Prop where
  | plain {ts : List Token} {e : Expr} :
      DerivesExpr .ternary ts e → DerivesExpr .expression ts e
  | assign {target value : List Token} {op : Token} {id id' : NodeId} {name : Ident} {e : Expr} :
      DerivesExpr .ternary target (.var id name) → op.kind = .equal →
      DerivesExpr .expression value e →
      DerivesExpr .expression (target ++ op :: value) (.assign id' name e)
  | set {target value : List Token} {op : Token} {object : Expr} {name : Ident} {e : Expr} :
      DerivesExpr .ternary target (.get object name) → op.kind = .equal →
      DerivesExpr .expression value e →
      DerivesExpr .expression (target ++ op :: value) (.set object name e)
  | compound {target value : List Token} {op : Token} {id id' : NodeId} {name : Ident} {e : Expr} :
      DerivesExpr .ternary target (.var id name) → op.kind ∈ compoundOperators →
      DerivesExpr .expression value e →
      DerivesExpr .expression (target ++ op :: value) (.update id' name op e)
  | step {target : List Token} {op : Token} {id id' : NodeId} {name : Ident} :
      DerivesExpr .ternary target (.var id name) → op.kind ∈ stepOperators →
      DerivesExpr .expression (target ++ [op]) (.update id' name op (.lit (.number 1.0)))
  | unconditional {ts : List Token} {e : Expr} :
      DerivesExpr (.binary .logical) ts e → DerivesExpr .ternary ts e
  | conditional {test whenTrue whenFalse : List Token} {question colon : Token} {c a b : Expr} :
      DerivesExpr (.binary .logical) test c → question.kind = .question →
      DerivesExpr .expression whenTrue a → colon.kind = .colon →
      DerivesExpr .expression whenFalse b →
      DerivesExpr .ternary (test ++ question :: whenTrue ++ colon :: whenFalse) (.ternary c a b)
  | single {level : Level} {ts : List Token} {e : Expr} :
      DerivesExpr (.operand level) ts e → DerivesExpr (.binary level) ts e
  | joinLogical {left right : List Token} {op : Token} {a b : Expr} :
      DerivesExpr (.binary .logical) left a → op.kind ∈ operators .logical →
      DerivesExpr (.operand .logical) right b →
      DerivesExpr (.binary .logical) (left ++ op :: right) (.logical op a b)
  | joinBinary {level : Level} {left right : List Token} {op : Token} {a b : Expr} :
      level ≠ .logical →
      DerivesExpr (.binary level) left a → op.kind ∈ operators level →
      DerivesExpr (.operand level) right b →
      DerivesExpr (.binary level) (left ++ op :: right) (.binary op a b)
  | logicalOperand {ts : List Token} {e : Expr} :
      DerivesExpr (.binary .equality) ts e → DerivesExpr (.operand .logical) ts e
  | equalityOperand {ts : List Token} {e : Expr} :
      DerivesExpr (.binary .comparison) ts e → DerivesExpr (.operand .equality) ts e
  | comparisonOperand {ts : List Token} {e : Expr} :
      DerivesExpr (.binary .term) ts e → DerivesExpr (.operand .comparison) ts e
  | termOperand {ts : List Token} {e : Expr} :
      DerivesExpr (.binary .factor) ts e → DerivesExpr (.operand .term) ts e
  | factorOperand {ts : List Token} {e : Expr} :
      DerivesExpr .unary ts e → DerivesExpr (.operand .factor) ts e
  | unary {ts : List Token} {op : Token} {e : Expr} :
      op.kind ∈ unaryOperators → DerivesExpr .unary ts e →
      DerivesExpr .unary (op :: ts) (.unary op e)
  | callUnary {ts : List Token} {e : Expr} :
      DerivesExpr .call ts e → DerivesExpr .unary ts e
  | primaryCall {ts : List Token} {e : Expr} :
      DerivesExpr .primary ts e → DerivesExpr .call ts e
  | call {callee args : List Token} {l r : Token} {f : Expr} {es : List Expr} :
      DerivesExpr .call callee f → l.kind = .leftParen →
      DerivesExpr .arguments args es → es.length ≤ 255 → r.kind = .rightParen →
      DerivesExpr .call (callee ++ l :: args ++ [r]) (.call f r.line es)
  | callNone {callee : List Token} {l r : Token} {f : Expr} :
      DerivesExpr .call callee f → l.kind = .leftParen → r.kind = .rightParen →
      DerivesExpr .call (callee ++ [l, r]) (.call f r.line [])
  | get {object : List Token} {dot name : Token} {e : Expr} :
      DerivesExpr .call object e → dot.kind = .dot → name.kind = .identifier →
      DerivesExpr .call (object ++ [dot, name]) (.get e name.ident)
  | index {target position : List Token} {l r : Token} {a i : Expr} :
      DerivesExpr .call target a → l.kind = .leftBracket →
      DerivesExpr .expression position i → r.kind = .rightBracket →
      DerivesExpr .call (target ++ l :: position ++ [r]) (.index a r.line i)
  | number {t : Token} {x : Float} :
      t.kind = .number x → DerivesExpr .primary [t] (.lit (.number x))
  | string {t : Token} {s : String} :
      t.kind = .string s → DerivesExpr .primary [t] (.lit (.string s))
  | trueLit {t : Token} : t.kind = .kwTrue → DerivesExpr .primary [t] (.lit (.bool true))
  | falseLit {t : Token} : t.kind = .kwFalse → DerivesExpr .primary [t] (.lit (.bool false))
  | nullLit {t : Token} : t.kind = .kwNull → DerivesExpr .primary [t] (.lit .null)
  | this {t : Token} {id : NodeId} :
      t.kind = .kwThis → DerivesExpr .primary [t] (.this id t.line)
  | name {t : Token} {id : NodeId} :
      t.kind = .identifier → DerivesExpr .primary [t] (.var id t.ident)
  | group {inner : List Token} {l r : Token} {e : Expr} :
      l.kind = .leftParen → DerivesExpr .expression inner e → r.kind = .rightParen →
      DerivesExpr .primary (l :: inner ++ [r]) (.group e)
  | array {items : List Token} {l r : Token} {es : List Expr} :
      l.kind = .leftBracket → DerivesExpr .arguments items es → r.kind = .rightBracket →
      DerivesExpr .primary (l :: items ++ [r]) (.array es)
  | arrayNone {l r : Token} :
      l.kind = .leftBracket → r.kind = .rightBracket → DerivesExpr .primary [l, r] (.array [])
  | one {ts : List Token} {e : Expr} :
      DerivesExpr .expression ts e → DerivesExpr .arguments ts [e]
  | more {ts rest : List Token} {comma : Token} {e : Expr} {es : List Expr} :
      DerivesExpr .expression ts e → comma.kind = .comma → DerivesExpr .arguments rest es →
      DerivesExpr .arguments (ts ++ comma :: rest) (e :: es)

/-! ## Statements -/

/-- An expression that may be missing. -/
inductive Clause : List Token → Option Expr → Prop where
  | none : Clause [] none
  | some {ts : List Token} {e : Expr} : DerivesExpr .expression ts e → Clause ts (some e)

/-- A variable declaration after its keyword. -/
inductive Variable : List Token → Stmt → Prop where
  | bare {name semi : Token} :
      name.kind = .identifier → semi.kind = .semicolon →
      Variable [name, semi] (.var name.ident none)
  | init {name equals semi : Token} {ts : List Token} {e : Expr} :
      name.kind = .identifier → equals.kind = .equal → DerivesExpr .expression ts e →
      semi.kind = .semicolon →
      Variable (name :: equals :: ts ++ [semi]) (.var name.ident (some e))

/-- The first clause of a `for` loop with its semicolon. -/
inductive ForInit : List Token → Option Stmt → Prop where
  | none {semi : Token} : semi.kind = .semicolon → ForInit [semi] none
  | var {keyword : Token} {ts : List Token} {s : Stmt} :
      keyword.kind = .kwVar → Variable ts s → ForInit (keyword :: ts) (some s)
  | expr {semi : Token} {ts : List Token} {e : Expr} :
      DerivesExpr .expression ts e → semi.kind = .semicolon →
      ForInit (ts ++ [semi]) (some (.expr e))

/-- Names between commas. -/
inductive Names : List Token → List Ident → Prop where
  | one {t : Token} : t.kind = .identifier → Names [t] [t.ident]
  | more {t comma : Token} {ts : List Token} {names : List Ident} :
      t.kind = .identifier → comma.kind = .comma → Names ts names →
      Names (t :: comma :: ts) (t.ident :: names)

/-- The parameters of a function, at most 255. -/
inductive Parameters : List Token → List Ident → Prop where
  | none : Parameters [] []
  | some {ts : List Token} {names : List Ident} :
      Names ts names → names.length ≤ 255 → Parameters ts names

/-- The symbols of statements.  The flag tells whether the tokens end in an `if` without `else`. -/
inductive StmtSymbol where
  | declarations
  | declaration (dangling : Bool)
  | statement (dangling : Bool)
  | callable
  | callables
  deriving DecidableEq, Repr

/-- What is derived under a symbol. -/
@[reducible] def StmtSymbol.Tree : StmtSymbol → Type
  | declarations => List Stmt
  | declaration _ => Stmt
  | statement _ => Stmt
  | callable => FunctionDecl
  | callables => List FunctionDecl

/-- The statements and the token lists that form them. -/
inductive DerivesStmt (nearest : Bool) : (s : StmtSymbol) → List Token → s.Tree → Prop where
  | noDeclaration : DerivesStmt nearest .declarations [] []
  | declarations {dangling : Bool} {ts rest : List Token} {s : Stmt} {ss : List Stmt} :
      DerivesStmt nearest (.declaration dangling) ts s →
      DerivesStmt nearest .declarations rest ss →
      DerivesStmt nearest .declarations (ts ++ rest) (s :: ss)
  | variable {keyword : Token} {ts : List Token} {s : Stmt} :
      keyword.kind = .kwVar → Variable ts s →
      DerivesStmt nearest (.declaration false) (keyword :: ts) s
  | statement {dangling : Bool} {ts : List Token} {s : Stmt} :
      DerivesStmt nearest (.statement dangling) ts s →
      DerivesStmt nearest (.declaration dangling) ts s
  | classDecl {keyword name l r : Token} {ts : List Token} {methods : List FunctionDecl} :
      keyword.kind = .kwClass → name.kind = .identifier → l.kind = .leftBrace →
      DerivesStmt nearest .callables ts methods → r.kind = .rightBrace →
      DerivesStmt nearest (.statement false) (keyword :: name :: l :: ts ++ [r])
        (.classDecl name.ident methods)
  | function {keyword : Token} {ts : List Token} {d : FunctionDecl} :
      keyword.kind = .kwFunction → DerivesStmt nearest .callable ts d →
      DerivesStmt nearest (.statement false) (keyword :: ts) (.function d)
  | ret {keyword semi : Token} {ts : List Token} {value : Option Expr} :
      keyword.kind = .kwReturn → Clause ts value → semi.kind = .semicolon →
      DerivesStmt nearest (.statement false) (keyword :: ts ++ [semi]) (.ret keyword.line value)
  | ifThen {dangling : Bool} {keyword l r : Token} {test ts : List Token} {c : Expr} {s : Stmt} :
      keyword.kind = .kwIf → l.kind = .leftParen → DerivesExpr .expression test c →
      r.kind = .rightParen → DerivesStmt nearest (.statement dangling) ts s →
      DerivesStmt nearest (.statement true) (keyword :: l :: test ++ r :: ts) (.ifElse c s none)
  | ifElse {dangling dangling' : Bool} {keyword l r orElse : Token} {test ts ts' : List Token}
      {c : Expr} {s s' : Stmt} :
      keyword.kind = .kwIf → l.kind = .leftParen → DerivesExpr .expression test c →
      r.kind = .rightParen → DerivesStmt nearest (.statement dangling) ts s →
      (nearest = true → dangling = false) → orElse.kind = .kwElse →
      DerivesStmt nearest (.statement dangling') ts' s' →
      DerivesStmt nearest (.statement dangling')
        (keyword :: l :: test ++ r :: ts ++ orElse :: ts') (.ifElse c s (some s'))
  | forLoop {dangling : Bool} {keyword l semi r : Token} {init test step ts : List Token}
      {i : Option Stmt} {c e : Option Expr} {s : Stmt} :
      keyword.kind = .kwFor → l.kind = .leftParen → ForInit init i → Clause test c →
      semi.kind = .semicolon → Clause step e → r.kind = .rightParen →
      DerivesStmt nearest (.statement dangling) ts s →
      DerivesStmt nearest (.statement dangling)
        (keyword :: l :: init ++ test ++ semi :: step ++ r :: ts) (.forLoop i c e s)
  | whileLoop {dangling : Bool} {keyword l r : Token} {test ts : List Token} {c : Expr} {s : Stmt} :
      keyword.kind = .kwWhile → l.kind = .leftParen → DerivesExpr .expression test c →
      r.kind = .rightParen → DerivesStmt nearest (.statement dangling) ts s →
      DerivesStmt nearest (.statement dangling) (keyword :: l :: test ++ r :: ts) (.whileLoop c s)
  | print {keyword semi : Token} {ts : List Token} {e : Expr} :
      keyword.kind = .kwPrint → DerivesExpr .expression ts e → semi.kind = .semicolon →
      DerivesStmt nearest (.statement false) (keyword :: ts ++ [semi]) (.print e)
  | block {l r : Token} {ts : List Token} {body : List Stmt} :
      l.kind = .leftBrace → DerivesStmt nearest .declarations ts body → r.kind = .rightBrace →
      DerivesStmt nearest (.statement false) (l :: ts ++ [r]) (.block body)
  | expr {semi : Token} {ts : List Token} {e : Expr} :
      DerivesExpr .expression ts e → semi.kind = .semicolon →
      DerivesStmt nearest (.statement false) (ts ++ [semi]) (.expr e)
  | callable {name l r l' r' : Token} {params ts : List Token} {names : List Ident}
      {body : List Stmt} :
      name.kind = .identifier → l.kind = .leftParen → Parameters params names →
      r.kind = .rightParen → l'.kind = .leftBrace → DerivesStmt nearest .declarations ts body →
      r'.kind = .rightBrace →
      DerivesStmt nearest .callable (name :: l :: params ++ r :: l' :: ts ++ [r'])
        (.mk name.ident names body)
  | noCallable : DerivesStmt nearest .callables [] []
  | callables {ts rest : List Token} {d : FunctionDecl} {ds : List FunctionDecl} :
      DerivesStmt nearest .callable ts d → DerivesStmt nearest .callables rest ds →
      DerivesStmt nearest .callables (ts ++ rest) (d :: ds)

/-- The tokens of a program, without an end token. -/
def Program (nearest : Bool) (ts : List Token) (p : Scriptlet.Program) : Prop :=
  DerivesStmt nearest .declarations ts p

end Scriptlet.Grammar
