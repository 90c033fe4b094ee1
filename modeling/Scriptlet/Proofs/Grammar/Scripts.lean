import Scriptlet.Proofs.Grammar.Progress

/-!
# The parser as scripts

The functions of the parser say what they read in terms of a few steps on single tokens.  Here their bodies are data, so
that a fact about all the steps becomes a fact about the parser.

* `ReadStep` — the steps on single tokens; `Rule` — the functions of the parser; `Command` — what a body may ask for.
* `Script` — a body; `Rule.script` — the bodies of the functions.
* `Script.interpret handle` — what a body does when its commands are carried out by `handle`.

Principal results: `Rule.run_succ` — the functions of the parser do what their scripts say; `Rule.run_grows` — a function
that has an answer keeps it when it may go deeper; `Parse.declaration_consumes` — a declaration takes a token.
-/

set_option autoImplicit false

namespace Scriptlet

/-- A step of the parser on single tokens. -/
inductive ReadStep : Type → Type
  | peek : ReadStep Token
  | sees (test : TokenKind → Bool) : ReadStep Bool
  | atBraceOrEnd : ReadStep Bool
  | accept (test : TokenKind → Bool) : ReadStep (Option Token)
  | skip : ReadStep Unit
  /-- There is nothing to go on with after a mistake. -/
  | fail (mistake : Mistake) : ReadStep Empty
  | report (t : Token) (mistake : Mistake) : ReadStep Unit
  | freshId : ReadStep NodeId

/-- A function of the parser. -/
inductive Rule : Type → Type
  | parameters (count : Nat) : Rule (List Ident)
  | expression : Rule Expr
  | ternary : Rule Expr
  | chain (level : Level) : Rule Expr
  | chainRest (level : Level) (left : Expr) : Rule Expr
  | operand (level : Level) : Rule Expr
  | unary : Rule Expr
  | callRest (subject : Expr) : Rule Expr
  | arguments (limit : Option Nat) (count : Nat) : Rule (List Expr)
  | primary : Rule Expr
  | declarationOrHalt : Rule Stmt
  | statement : Rule Stmt
  | classDecl : Rule Stmt
  | methodList : Rule (List FunctionDecl)
  | callable (kind : DeclKind) : Rule FunctionDecl
  | ifStmt : Rule Stmt
  | forStmt : Rule Stmt
  | whileStmt : Rule Stmt
  | block : Rule (List Stmt)
  | declarations : Rule Program

/-- What the body of a function may ask for. -/
inductive Command : Type → Type 1
  | step {α : Type} (s : ReadStep α) : Command α
  | rule {α : Type} (r : Rule α) : Command α
  /-- The next declaration of a block or program; `none` if there is no further one. -/
  | declaration (inBlock : Bool) : Command (Option (Option Stmt))

/-- The body of a function: commands, each with what to do after its answer. -/
inductive Script (α : Type) : Type 1
  | done (a : α)
  | ask {β : Type} (c : Command β) (next : β → Script α)

namespace Script

def bind {α β : Type} : Script α → (α → Script β) → Script β
  | done a, f => f a
  | ask c next, f => ask c fun b => (next b).bind f

instance : Monad Script where
  pure := done
  bind := bind

/-- Carries out the commands of a script. -/
def interpret {m : Type → Type} [Monad m] (handle : ∀ {β : Type}, Command β → m β) {α : Type} : Script α → m α
  | done a => pure a
  | ask c next => handle c >>= fun b => (next b).interpret handle

def peek : Script Token := ask (.step .peek) done

def sees (test : TokenKind → Bool) : Script Bool := ask (.step (.sees test)) done

def atBraceOrEnd : Script Bool := ask (.step .atBraceOrEnd) done

def accept? (test : TokenKind → Bool) : Script (Option Token) := ask (.step (.accept test)) done

def skip : Script Unit := ask (.step .skip) done

def fail {α : Type} (mistake : Mistake) : Script α := ask (.step (.fail mistake)) nofun

def report (t : Token) (mistake : Mistake) : Script Unit := ask (.step (.report t mistake)) done

def freshId : Script NodeId := ask (.step .freshId) done

def rule {α : Type} (r : Rule α) : Script α := ask (.rule r) done

def declaration (inBlock : Bool) : Script (Option (Option Stmt)) := ask (.declaration inBlock) done

def expect (kind : TokenKind) (mistake : Mistake) : Script Token := do
  match ← accept? (· = kind) with
  | some t => return t
  | none => fail mistake

def assignTo (target : Expr) (equals : Token) (value : Expr) : Script Expr := do
  match target with
  | .var _ name => return .assign (← freshId) name value
  | .get object name => return .set object name value
  | other => report equals .assignmentTarget; return other

def updateOf (target : Expr) (op : Token) (operand : Expr) : Script Expr := do
  match target with
  | .var _ name => return .update (← freshId) name op operand
  | other => report op .assignmentTarget; return other

def variableDecl : Script Stmt := do
  let name ← expect .identifier .variableName
  let init ← match ← accept? (· = .equal) with
    | some _ => some <$> rule .expression
    | none => pure none
  let _ ← expect .semicolon .semicolonAfterVariable
  return .var name.ident init

def expressionStmt : Script Stmt := do
  let e ← rule .expression
  let _ ← expect .semicolon .semicolonAfterExpression
  return .expr e

def printStmt : Script Stmt := do
  let e ← rule .expression
  let _ ← expect .semicolon .semicolonAfterPrint
  return .print e

def expressionUnless (kind : TokenKind) : Script (Option Expr) := do
  if ← sees (· = kind) then return none else some <$> rule .expression

def returnStmt (line : Nat) : Script Stmt := do
  let value ← expressionUnless .semicolon
  let _ ← expect .semicolon .semicolonAfterReturn
  return .ret line value

def forInit : Script (Option Stmt) := do
  match (← peek).kind with
  | .semicolon => skip; return none
  | .kwVar => skip; some <$> variableDecl
  | _ => some <$> expressionStmt

end Script

open Script in
/-- The body of each function. -/
def Rule.script : {α : Type} → Rule α → Script α
  | _, .parameters count => do
      if maxArity ≤ count then report (← peek) .tooManyParameters
      let name ← expect .identifier .parameterName
      match ← accept? (· = .comma) with
      | some _ => return name.ident :: (← rule (.parameters (count + 1)))
      | none => return [name.ident]
  | _, .expression => do
      let target ← rule .ternary
      match ← accept? (· = .equal) with
      | some equals => assignTo target equals (← rule .expression)
      | none => match ← accept? isCompoundAssign with
        | some op => updateOf target op (← rule .expression)
        | none => match ← accept? isStep with
          | some op => updateOf target op (.lit (.number 1.0))
          | none => return target
  | _, .ternary => do
      let test ← rule (.chain .logical)
      match ← accept? (· = .question) with
      | some _ =>
          let whenTrue ← rule .expression
          let _ ← expect .colon .colonInTernary
          return .ternary test whenTrue (← rule .expression)
      | none => return test
  | _, .chain level => do rule (.chainRest level (← rule (.operand level)))
  | _, .chainRest level left => do
      match ← accept? level.isOperator with
      | some op => rule (.chainRest level (level.node op left (← rule (.operand level))))
      | none => return left
  | _, .operand level =>
      match level.tighter with
      | some tighter => rule (.chain tighter)
      | none => rule .unary
  | _, .unary => do
      match ← accept? isUnaryOperator with
      | some op => return .unary op (← rule .unary)
      | none => rule (.callRest (← rule .primary))
  | _, .callRest subject => do
      match (← peek).kind with
      | .leftParen =>
          skip
          let args ← if ← sees (· = .rightParen) then pure [] else rule (.arguments (some maxArity) 0)
          let paren ← expect .rightParen .parenAfterArguments
          rule (.callRest (.call subject paren.line args))
      | .dot =>
          skip
          let name ← expect .identifier .propertyName
          rule (.callRest (.get subject name.ident))
      | .leftBracket =>
          skip
          let position ← rule .expression
          let bracket ← expect .rightBracket .bracketAfterIndex
          rule (.callRest (.index subject bracket.line position))
      | _ => return subject
  | _, .arguments limit count => do
      if limit.any (· ≤ count) then report (← peek) .tooManyArguments
      let first ← rule .expression
      match ← accept? (· = .comma) with
      | some _ => return first :: (← rule (.arguments limit (count + 1)))
      | none => return [first]
  | _, .primary => do
      let t ← peek
      match t.kind with
      | .kwThis => skip; return .this (← freshId) t.line
      | .kwFalse => skip; return .lit (.bool false)
      | .kwTrue => skip; return .lit (.bool true)
      | .kwNull => skip; return .lit .null
      | .number x => skip; return .lit (.number x)
      | .string s => skip; return .lit (.string s)
      | .identifier => skip; return .var (← freshId) t.ident
      | .leftParen =>
          skip
          let inner ← rule .expression
          let _ ← expect .rightParen .parenAfterGroup
          return .group inner
      | .leftBracket =>
          skip
          let items ← if ← sees (· = .rightBracket) then pure [] else rule (.arguments none 0)
          let _ ← expect .rightBracket .bracketAfterArray
          return .array items
      | _ => fail .expression
  | _, .declarationOrHalt => do
      match (← peek).kind with
      | .kwVar => skip; variableDecl
      | _ => rule .statement
  | _, .statement => do
      let t ← peek
      match t.kind with
      | .kwClass => skip; rule .classDecl
      | .kwReturn => skip; returnStmt t.line
      | .kwFunction => skip; .function <$> rule (.callable .function)
      | .kwIf => skip; rule .ifStmt
      | .kwFor => skip; rule .forStmt
      | .kwWhile => skip; rule .whileStmt
      | .kwPrint => skip; printStmt
      | .leftBrace => skip; .block <$> rule .block
      | _ => expressionStmt
  | _, .classDecl => do
      let name ← expect .identifier .className
      let _ ← expect .leftBrace .braceBeforeClassBody
      let methods ← rule .methodList
      let _ ← expect .rightBrace .braceAfterClassBody
      return .classDecl name.ident methods
  | _, .methodList => do
      if ← atBraceOrEnd then return []
      let first ← rule (.callable .method)
      return first :: (← rule .methodList)
  | _, .callable kind => do
      let name ← expect .identifier (.declName kind)
      let _ ← expect .leftParen (.parenAfterDeclName kind)
      let params ← if ← sees (· = .rightParen) then pure [] else rule (.parameters 0)
      let _ ← expect .rightParen .parenAfterParameters
      let _ ← expect .leftBrace (.braceBeforeDeclBody kind)
      return .mk name.ident params (← rule .block)
  | _, .ifStmt => do
      let _ ← expect .leftParen .parenAfterIf
      let test ← rule .expression
      let _ ← expect .rightParen .parenAfterIfTest
      let whenTrue ← rule .statement
      match ← accept? (· = .kwElse) with
      | some _ => return .ifElse test whenTrue (some (← rule .statement))
      | none => return .ifElse test whenTrue none
  | _, .forStmt => do
      let _ ← expect .leftParen .parenAfterFor
      let init ← forInit
      let test ← expressionUnless .semicolon
      let _ ← expect .semicolon .semicolonAfterLoopTest
      let step ← expressionUnless .rightParen
      let _ ← expect .rightParen .parenAfterForClauses
      return .forLoop init test step (← rule .statement)
  | _, .whileStmt => do
      let _ ← expect .leftParen .parenAfterWhile
      let test ← rule .expression
      let _ ← expect .rightParen .parenAfterWhileTest
      return .whileLoop test (← rule .statement)
  | _, .block => do
      match ← declaration true with
      | none =>
          let _ ← expect .rightBrace .braceAfterBlock
          return []
      | some first => return first.toList ++ (← rule .block)
  | _, .declarations => do
      match ← declaration false with
      | none => return []
      | some first => return first.toList ++ (← rule .declarations)

/-! ## The functions of the parser -/

/-- What a step does. -/
def ReadStep.run : {α : Type} → ReadStep α → Parse α
  | _, .peek => Parse.peek
  | _, .sees test => Parse.sees test
  | _, .atBraceOrEnd => Parse.atBraceOrEnd
  | _, .accept test => Parse.accept? test
  | _, .skip => Parse.skip
  | _, .fail mistake => Parse.fail mistake
  | _, .report t mistake => Parse.report t mistake
  | _, .freshId => Parse.freshId

/-- What a function does when it may recurse to the given depth. -/
def Rule.run (depth : Nat) : {α : Type} → Rule α → Parse α
  | _, .parameters count => Parse.parameters depth count
  | _, .expression => Parse.expression depth
  | _, .ternary => Parse.ternary depth
  | _, .chain level => Parse.chain depth level
  | _, .chainRest level left => Parse.chainRest depth level left
  | _, .operand level => Parse.operand depth level
  | _, .unary => Parse.unary depth
  | _, .callRest subject => Parse.callRest depth subject
  | _, .arguments limit count => Parse.arguments depth limit count
  | _, .primary => Parse.primary depth
  | _, .declarationOrHalt => Parse.declarationOrHalt depth
  | _, .statement => Parse.statement depth
  | _, .classDecl => Parse.classDecl depth
  | _, .methodList => Parse.methodList depth
  | _, .callable kind => Parse.callable depth kind
  | _, .ifStmt => Parse.ifStmt depth
  | _, .forStmt => Parse.forStmt depth
  | _, .whileStmt => Parse.whileStmt depth
  | _, .block => Parse.block depth
  | _, .declarations => Parse.declarations depth

/-- Whether the declarations of a block or program end here. -/
def Parse.closes (inBlock : Bool) : Parse Bool := if inBlock then Parse.atBraceOrEnd else Parse.atEnd

/-- What a command does when the functions it asks for may recurse to the given depth. -/
def Command.run (depth : Nat) : {α : Type} → Command α → Parse α
  | _, .step s => s.run
  | _, .rule r => r.run depth
  | _, .declaration inBlock => do
      if ← Parse.closes inBlock then return none else some <$> Parse.declaration depth

/-- What a script does when the functions it asks for may recurse to the given depth. -/
def Script.run (depth : Nat) {α : Type} (s : Script α) : Parse α := s.interpret (Command.run depth)

namespace Script

variable (depth : Nat) {α β : Type}

@[simp] theorem run_pure (a : α) : (pure a : Script α).run depth = pure a := rfl

@[simp] theorem run_bind (s : Script α) (f : α → Script β) :
    (s >>= f).run depth = s.run depth >>= fun a => (f a).run depth := by
  induction s with
  | done a => rfl
  | ask c next ih =>
      show (c.run depth >>= fun b => (next b >>= f).run depth) = _
      rw [funext ih]
      exact (bind_assoc _ _ _).symm

@[simp] theorem run_map (f : α → β) (s : Script α) : (f <$> s).run depth = f <$> s.run depth := by
  show (s >>= fun a => pure (f a)).run depth = _
  rw [run_bind, ← bind_pure_comp]
  rfl

@[simp] theorem run_ite (c : Prop) [Decidable c] (s s' : Script α) :
    (if c then s else s').run depth = if c then s.run depth else s'.run depth := by
  split <;> rfl

@[simp] theorem run_peek : peek.run depth = Parse.peek := bind_pure _

@[simp] theorem run_sees (test : TokenKind → Bool) : (sees test).run depth = Parse.sees test := bind_pure _

@[simp] theorem run_atBraceOrEnd : atBraceOrEnd.run depth = Parse.atBraceOrEnd := bind_pure _

@[simp] theorem run_accept (test : TokenKind → Bool) : (accept? test).run depth = Parse.accept? test := bind_pure _

@[simp] theorem run_skip : skip.run depth = Parse.skip := bind_pure _

@[simp] theorem run_report (t : Token) (mistake : Mistake) : (report t mistake).run depth = Parse.report t mistake :=
  bind_pure _

@[simp] theorem run_freshId : freshId.run depth = Parse.freshId := bind_pure _

@[simp] theorem run_rule (r : Rule α) : (rule r).run depth = r.run depth := bind_pure _

@[simp] theorem run_declaration (inBlock : Bool) :
    (declaration inBlock).run depth = (Command.declaration inBlock).run depth := bind_pure _

@[simp] theorem run_fail (mistake : Mistake) : (fail mistake : Script α).run depth = Parse.fail mistake := rfl

@[simp] theorem run_expect (kind : TokenKind) (mistake : Mistake) :
    (expect kind mistake).run depth = Parse.expect kind mistake := by
  rw [expect, run_bind, run_accept]
  refine bind_congr fun t => ?_
  cases t <;> rfl

@[simp] theorem run_assignTo (target : Expr) (equals : Token) (value : Expr) :
    (assignTo target equals value).run depth = Parse.assignTo target equals value := by
  cases target <;> rfl

@[simp] theorem run_updateOf (target : Expr) (op : Token) (operand : Expr) :
    (updateOf target op operand).run depth = Parse.updateOf target op operand := by
  cases target <;> rfl

@[simp] theorem run_variableDecl : variableDecl.run depth = Parse.variableDecl depth := by
  simp only [variableDecl, Parse.variableDecl, run_bind, run_expect, run_accept]
  refine bind_congr fun name => bind_congr fun t => ?_
  cases t <;> simp [Rule.run]

@[simp] theorem run_expressionStmt : expressionStmt.run depth = Parse.expressionStmt depth := by
  simp [expressionStmt, Parse.expressionStmt, Rule.run]

@[simp] theorem run_printStmt : printStmt.run depth = Parse.printStmt depth := by
  simp [printStmt, Parse.printStmt, Rule.run]

@[simp] theorem run_expressionUnless (kind : TokenKind) :
    (expressionUnless kind).run depth = Parse.expressionUnless depth kind := by
  simp [expressionUnless, Parse.expressionUnless, Rule.run]

@[simp] theorem run_returnStmt (line : Nat) : (returnStmt line).run depth = Parse.returnStmt depth line := by
  simp [returnStmt, Parse.returnStmt]

@[simp] theorem run_forInit : forInit.run depth = Parse.forInit depth := by
  simp only [forInit, Parse.forInit, run_bind, run_peek]
  refine bind_congr fun t => ?_
  split <;> simp [*]

end Script

open Script in
/-- **The functions of the parser do what their scripts say.** -/
theorem Rule.run_succ (depth : Nat) {α : Type} (r : Rule α) : r.run (depth + 1) = r.script.run depth := by
  symm
  cases r with
  | parameters count =>
      simp only [Rule.script, Rule.run, Parse.parameters, run_ite, run_bind, run_peek, run_report, run_expect,
        run_accept]
      split
      · refine bind_congr fun t => bind_congr fun _ => bind_congr fun name => bind_congr fun comma => ?_
        cases comma <;> simp [Rule.run]
      · refine bind_congr fun name => bind_congr fun comma => ?_
        cases comma <;> simp [Rule.run]
  | expression =>
      simp only [Rule.script, Rule.run, Parse.expression, run_bind, run_rule, run_accept]
      refine bind_congr fun target => bind_congr fun t => ?_
      cases t with
      | some equals => simp [Rule.run]
      | none =>
          simp only [run_bind, run_accept]
          refine bind_congr fun t => ?_
          cases t with
          | some op => simp [Rule.run]
          | none =>
              simp only [run_bind, run_accept]
              refine bind_congr fun t => ?_
              cases t <;> simp
  | ternary =>
      simp only [Rule.script, Rule.run, Parse.ternary, run_bind, run_rule, run_accept]
      refine bind_congr fun test => bind_congr fun t => ?_
      cases t <;> simp [Rule.run]
  | chain level => simp [Rule.script, Rule.run, Parse.chain]
  | chainRest level left =>
      simp only [Rule.script, Rule.run, Parse.chainRest, run_bind, run_accept]
      refine bind_congr fun t => ?_
      cases t <;> simp [Rule.run]
  | operand level =>
      simp only [Rule.script, Rule.run, Parse.operand]
      cases level.tighter <;> simp [Rule.run]
  | unary =>
      simp only [Rule.script, Rule.run, Parse.unary, run_bind, run_accept]
      refine bind_congr fun t => ?_
      cases t <;> simp [Rule.run]
  | callRest subject =>
      simp only [Rule.script, Rule.run, Parse.callRest, run_bind, run_peek]
      refine bind_congr fun t => ?_
      split <;> simp [Rule.run, *]
  | arguments limit count =>
      simp only [Rule.script, Rule.run, Parse.arguments, run_ite, run_bind, run_peek, run_report, run_rule, run_accept]
      split
      · refine bind_congr fun t => bind_congr fun _ => bind_congr fun first => bind_congr fun comma => ?_
        cases comma <;> simp [Rule.run]
      · refine bind_congr fun first => bind_congr fun comma => ?_
        cases comma <;> simp [Rule.run]
  | primary =>
      simp only [Rule.script, Rule.run, Parse.primary, run_bind, run_peek]
      refine bind_congr fun t => ?_
      split <;> simp [Rule.run, *]
  | declarationOrHalt =>
      simp only [Rule.script, Rule.run, Parse.declarationOrHalt, run_bind, run_peek]
      refine bind_congr fun t => ?_
      split <;> simp [Rule.run, *]
  | statement =>
      simp only [Rule.script, Rule.run, Parse.statement, run_bind, run_peek]
      refine bind_congr fun t => ?_
      split <;> simp [Rule.run, *]
  | classDecl => simp [Rule.script, Rule.run, Parse.classDecl]
  | methodList => simp [Rule.script, Rule.run, Parse.methodList]
  | callable kind => simp [Rule.script, Rule.run, Parse.callable]
  | ifStmt =>
      simp only [Rule.script, Rule.run, Parse.ifStmt, run_bind, run_rule, run_expect, run_accept]
      refine bind_congr fun _ => bind_congr fun test => bind_congr fun _ => bind_congr fun whenTrue =>
        bind_congr fun t => ?_
      cases t <;> simp [Rule.run]
  | forStmt => simp [Rule.script, Rule.run, Parse.forStmt]
  | whileStmt => simp [Rule.script, Rule.run, Parse.whileStmt]
  | block =>
      simp only [Rule.script, Rule.run, Parse.block, run_bind, run_declaration, Command.run, Parse.closes, if_true,
        bind_assoc]
      refine bind_congr fun closed => ?_
      cases closed <;> simp [Rule.run]
  | declarations =>
      simp only [Rule.script, Rule.run, Parse.declarations, run_bind, run_declaration, Command.run, Parse.closes,
        Bool.false_eq_true, if_false, bind_assoc]
      refine bind_congr fun closed => ?_
      cases closed <;> simp [Rule.run]

theorem Rule.run_zero {α : Type} (r : Rule α) : r.run 0 = Parse.exhausted := by
  cases r <;> rfl

/-! ## Deeper recursion -/

/-- The second action answers as the first does, unless the first uses up its depth. -/
def Parse.Grows {α : Type} (x y : Parse α) : Prop :=
  ∀ st, (∃ st', x st = .error .exhausted st') ∨ y st = x st

namespace Parse

variable {α β : Type} {x y z : Parse α}

theorem Grows.refl (x : Parse α) : Grows x x := fun _ => .inr rfl

theorem grows_exhausted : Grows exhausted x := fun st => .inl ⟨st, rfl⟩

theorem Grows.trans (h : Grows x y) (h' : Grows y z) : Grows x z := by
  intro st
  rcases h st with hx | hy
  · exact .inl hx
  · rcases h' st with hy' | hz
    · exact .inl (hy ▸ hy')
    · exact .inr (hz.trans hy)

theorem Grows.bind {f g : α → Parse β} (h : Grows x y) (hf : ∀ a, Grows (f a) (g a)) : Grows (x >>= f) (y >>= g) := by
  intro st
  simp only [Bind.bind, EStateM.bind]
  rcases h st with ⟨st', hx⟩ | hy
  · exact .inl ⟨st', by rw [hx]⟩
  · rw [hy]
    cases x st with
    | ok a st' => exact hf a st'
    | error halt st' => exact .inr rfl

theorem Grows.ok (h : Grows x y) {st st' : ParseState} {a : α} (hx : x st = .ok a st') : y st = .ok a st' := by
  rcases h st with ⟨st'', hexhausted⟩ | hy
  · rw [hx] at hexhausted
    cases hexhausted
  · rw [hy, hx]

end Parse

theorem Script.interpret_grows {handle handle' : ∀ {β : Type}, Command β → Parse β}
    (h : ∀ {β : Type} (c : Command β), Parse.Grows (handle c) (handle' c)) {α : Type} (s : Script α) :
    Parse.Grows (s.interpret handle) (s.interpret handle') := by
  induction s with
  | done a => exact .refl _
  | ask c next ih => exact (h c).bind ih

theorem Command.run_grows {depth depth' : Nat} (hrule : ∀ {α : Type} (r : Rule α), Parse.Grows (r.run depth) (r.run depth'))
    (hdeclaration : Parse.Grows (Parse.declaration depth) (Parse.declaration depth')) {α : Type} (c : Command α) :
    Parse.Grows (c.run depth) (c.run depth') := by
  cases c with
  | step s => exact .refl _
  | rule r => exact hrule r
  | declaration inBlock =>
      refine Parse.Grows.bind (.refl _) fun closed => ?_
      split
      · exact .refl _
      · rw [← bind_pure_comp, ← bind_pure_comp]
        exact hdeclaration.bind fun _ => .refl _

theorem Parse.declaration_grows {depth depth' : Nat}
    (h : Parse.Grows (Parse.declarationOrHalt depth) (Parse.declarationOrHalt depth')) :
    Parse.Grows (Parse.declaration (depth + 1)) (Parse.declaration (depth' + 1)) := by
  intro st
  simp only [Parse.declaration]
  rcases h st with ⟨st', hx⟩ | hy
  · exact .inl ⟨st', by rw [hx]⟩
  · rw [hy]
    exact .inr rfl

/-- **A function that has an answer keeps it when it may go one step deeper.** -/
theorem Rule.run_grows (depth : Nat) :
    (∀ {α : Type} (r : Rule α), Parse.Grows (r.run depth) (r.run (depth + 1))) ∧
      Parse.Grows (Parse.declaration depth) (Parse.declaration (depth + 1)) := by
  induction depth with
  | zero =>
      refine ⟨fun r => ?_, Parse.grows_exhausted⟩
      rw [Rule.run_zero]
      exact Parse.grows_exhausted
  | succ depth ih =>
      refine ⟨fun r => ?_, Parse.declaration_grows (ih.1 .declarationOrHalt)⟩
      rw [Rule.run_succ, Rule.run_succ]
      exact r.script.interpret_grows (Command.run_grows ih.1 ih.2)

theorem Parse.declarations_grows {depth depth' : Nat} (h : depth ≤ depth') :
    Parse.Grows (Parse.declarations depth) (Parse.declarations depth') := by
  induction h with
  | refl => exact .refl _
  | step _ ih => exact ih.trans ((Rule.run_grows _).1 .declarations)

theorem Parse.declaration_deeper {depth depth' : Nat} (h : depth ≤ depth') :
    Parse.Grows (Parse.declaration depth) (Parse.declaration depth') := by
  induction h with
  | refl => exact .refl _
  | step _ ih => exact ih.trans (Rule.run_grows _).2

/-- A declaration that is read takes a token, however deep it may recurse. -/
theorem Parse.declaration_consumes {ts : List Token} {depth : Nat} {st st' : ParseState} {s : Option Stmt}
    (hst : st.Stands ts) (hend : st.atEnd = false) (h : Parse.declaration depth st = .ok s st') :
    st'.rest.length < st.rest.length := by
  -- With enough depth, progress is known; the answer is the same.
  have hroom : Parse.Room ts 16 (depth + (16 * st.rest.length + 16)) st := ⟨hst, by omega⟩
  obtain ⟨s', st'', hr, -, hlength⟩ := (Parse.stmtTakes ts _).declaration hroom hend
  have hdeep := (Parse.declaration_deeper (Nat.le_add_right depth (16 * st.rest.length + 16))).ok h
  rw [hr] at hdeep
  cases hdeep
  exact hlength

end Scriptlet
