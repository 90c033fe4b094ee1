import Mathlib
import Scriptlet.Proofs.Grammar.Rules
import Scriptlet.Proofs.Number.Rescanned
import Scriptlet.Proofs.Print.Forms
import Scriptlet.Proofs.Tree.Lines

/-!
# Reading printed trees

A printed tree is read back in two steps, first into forms and then into a tree without ids and lines.

* `Expr.form`, `Stmt.form` — the forms that the printed texts are made of.
* `Form.expr?`, `Form.stmt?` — the tree of a form.  What a word stands for is what it is scanned as.
* `Expr.Written`, `Stmt.Written` — trees whose names, operators and literals are those of tokens.

Principal result: `Stmt.Written.readAsAll` — the forms of such trees are legible and read back, up to ids and lines.
-/

set_option autoImplicit false

namespace Scriptlet

/-! ## Forms of trees -/

/-- The form of a literal. -/
def Literal.form : Literal → Form
  | .string s => .quoted s
  | other => .word other.text

mutual
/-- The form of an expression. -/
def Expr.form : Expr → Form
  | .lit value => value.form
  | .group inner => .list [.word "group", inner.form]
  | .unary op operand => .list [.word op.lexeme, operand.form]
  | .binary op left right => .list [.word op.lexeme, left.form, right.form]
  | .logical op left right => .list [.word op.lexeme, left.form, right.form]
  | .ternary test whenTrue whenFalse => .list [.word "?:", test.form, whenTrue.form, whenFalse.form]
  | .var _ name => .word name.name
  | .assign _ name value => .list [.word "=", .word name.name, value.form]
  | .update _ name op operand => .list [.word op.lexeme, .word name.name, operand.form]
  | .this _ _ => .word "this"
  | .array items => .array (Expr.forms items)
  | .index target _ position => .list [.word "index", target.form, position.form]
  | .call callee _ args => .list (.word "call" :: callee.form :: Expr.forms args)
  | .get object name => .list [.word ".", object.form, .word name.name]
  | .set object name value => .list [.word ".=", object.form, .word name.name, value.form]
/-- The forms of several expressions. -/
def Expr.forms : List Expr → List Form
  | [] => []
  | e :: rest => e.form :: Expr.forms rest
end

mutual
/-- The form of a statement. -/
def Stmt.form : Stmt → Form
  | .expr e => .list [.word ";", e.form]
  | .print e => .list [.word "print", e.form]
  | .var name none => .list [.word "var", .word name.name]
  | .var name (some init) => .list [.word "var", .word name.name, init.form]
  | .block body => .list (.word "block" :: Stmt.forms body)
  | .ifElse test whenTrue none => .list [.word "if", test.form, whenTrue.form]
  | .ifElse test whenTrue (some whenFalse) => .list [.word "if", test.form, whenTrue.form, whenFalse.form]
  | .whileLoop test body => .list [.word "while", test.form, body.form]
  | .function decl => decl.form "function"
  | .classDecl name methods => .list (.word "class" :: .word name.name :: FunctionDecl.forms "method" methods)
  | .ret _ none => .list [.word "return"]
  | .ret _ (some value) => .list [.word "return", value.form]
/-- The forms of several statements. -/
def Stmt.forms : List Stmt → List Form
  | [] => []
  | s :: rest => s.form :: Stmt.forms rest
/-- The form of a function or method, after the given word. -/
def FunctionDecl.form (word : String) : FunctionDecl → Form
  | .mk name params body =>
      .list (.word word :: .word name.name :: .list (params.map fun p => .word p.name) :: Stmt.forms body)
/-- The forms of several functions. -/
def FunctionDecl.forms (word : String) : List FunctionDecl → List Form
  | [] => []
  | d :: rest => d.form word :: FunctionDecl.forms word rest
end

theorem Literal.text_form (value : Literal) : value.form.text = value.text := by
  cases value <;> rfl

mutual
theorem Expr.text_form : ∀ e : Expr, e.form.text = e.text
  | .lit value => value.text_form
  | .var _ _ | .this _ _ => rfl
  | .group e | .unary _ e | .assign _ _ e | .update _ _ _ e | .get e _ => by
      simp only [Expr.form, Expr.text, Form.text, Form.texts, e.text_form]
  | .binary _ a b | .logical _ a b | .index a _ b | .set a _ b => by
      simp only [Expr.form, Expr.text, Form.text, Form.texts, a.text_form, b.text_form]
  | .ternary a b c => by
      simp only [Expr.form, Expr.text, Form.text, Form.texts, a.text_form, b.text_form, c.text_form]
  | .array es => by
      simp only [Expr.form, Expr.text, Form.text, Expr.texts_forms es]
  | .call e _ es => by
      simp only [Expr.form, Expr.text, Form.text, Form.texts, e.text_form, Expr.texts_forms es]
theorem Expr.texts_forms : ∀ es : List Expr, Form.texts (Expr.forms es) = Expr.texts es
  | [] => rfl
  | e :: es => by
      simp only [Expr.forms, Expr.texts, Form.texts, e.text_form, Expr.texts_forms es]
end

theorem Form.texts_words (names : List Ident) :
    Form.texts (names.map fun n => .word n.name) = names.map Ident.name := by
  induction names with
  | nil => rfl
  | cons n names ih => exact congrArg (n.name :: ·) ih

mutual
theorem Stmt.text_form : ∀ s : Stmt, s.form.text = s.text
  | .var _ none | .ret _ none => rfl
  | .expr e | .print e | .var _ (some e) | .ret _ (some e) => by
      simp only [Stmt.form, Stmt.text, Form.text, Form.texts, e.text_form]
  | .block body => by
      simp only [Stmt.form, Stmt.text, Form.text, Form.texts, Stmt.texts_forms body]
  | .ifElse e s none | .whileLoop e s => by
      simp only [Stmt.form, Stmt.text, Form.text, Form.texts, e.text_form, s.text_form]
  | .ifElse e s (some s') => by
      simp only [Stmt.form, Stmt.text, Form.text, Form.texts, e.text_form, s.text_form, s'.text_form]
  | .function d => d.text_form "function"
  | .classDecl _ methods => by
      simp only [Stmt.form, Stmt.text, Form.text, Form.texts, FunctionDecl.texts_forms "method" methods]
theorem Stmt.texts_forms : ∀ ss : List Stmt, Form.texts (Stmt.forms ss) = Stmt.texts ss
  | [] => rfl
  | s :: ss => by
      simp only [Stmt.forms, Stmt.texts, Form.texts, s.text_form, Stmt.texts_forms ss]
theorem FunctionDecl.text_form (word : String) : ∀ d : FunctionDecl, (d.form word).text = d.text word
  | .mk _ params body => by
      simp only [FunctionDecl.form, FunctionDecl.text, Form.text, Form.texts, Form.texts_words params,
        Stmt.texts_forms body]
theorem FunctionDecl.texts_forms (word : String) :
    ∀ ds : List FunctionDecl, Form.texts (FunctionDecl.forms word ds) = FunctionDecl.texts word ds
  | [] => rfl
  | d :: ds => by
      simp only [FunctionDecl.forms, FunctionDecl.texts, Form.texts, d.text_form word, FunctionDecl.texts_forms word ds]
end

/-! ## Trees of forms -/

/-- What a word is scanned as. -/
def wordKind (text : String) : TokenKind := ((tokens text).headD (.endOfSource 1)).kind

/-- The expression of a word. -/
def readWord (text : String) : Option Expr :=
  match wordKind text with
  | .kwNull => some (.lit .null)
  | .kwTrue => some (.lit (.bool true))
  | .kwFalse => some (.lit (.bool false))
  | .kwThis => some (.this 0 0)
  | .number x => some (.lit (.number x))
  | .identifier => some (.var 0 ⟨text, 0⟩)
  | _ => none

/-- The node of an operator with two operands. -/
def readOperator (op : Token) (left right : Expr) : Option Expr :=
  if isCompoundAssign op.kind || isStep op.kind then
    match left with
    | .var _ name => some (.update 0 name op right)
    | _ => none
  else some (if Level.logical.isOperator op.kind then .logical op left right else .binary op left right)

/-- The node with the given head and parts; names stand among the parts as variables. -/
def readNode (head : String) (parts : List Expr) : Option Expr :=
  match wordKind head, parts with
  | .identifier, e :: es =>
      if head = "call" then some (.call e 0 es)
      else match es with
        | [] => some (.group e)
        | [position] => some (.index e 0 position)
        | _ => none
  | .question, [a, b, c] => some (.ternary a b c)
  | .dot, [e, .var _ name] => some (.get e name)
  | .dot, [e, .var _ name, value] => some (.set e name value)
  | .equal, [.var _ name, value] => some (.assign 0 name value)
  | kind, [e] => some (.unary ⟨kind, head, 0⟩ e)
  | kind, [a, b] => readOperator ⟨kind, head, 0⟩ a b
  | _, _ => none

namespace Form

mutual
/-- The expression of a form. -/
def expr? : Form → Option Expr
  | .word text => readWord text
  | .quoted body => some (.lit (.string body))
  | .array items => Expr.array <$> exprs? items
  | .list (.word head :: parts) => exprs? parts >>= readNode head
  | .list _ => none
/-- The expressions of several forms. -/
def exprs? : List Form → Option (List Expr)
  | [] => some []
  | f :: rest => do return (← f.expr?) :: (← exprs? rest)
end

/-- The name of a word. -/
def name? : Form → Option Ident
  | .word text => some ⟨text, 0⟩
  | _ => none

mutual
/-- The statement of a form. -/
def stmt? : Form → Option Stmt
  | .list (.word head :: parts) =>
      match head, parts with
      | ";", [e] => Stmt.expr <$> e.expr?
      | "print", [e] => Stmt.print <$> e.expr?
      | "var", [name] => do return .var (← name.name?) none
      | "var", [name, init] => do return .var (← name.name?) (some (← init.expr?))
      | "block", body => Stmt.block <$> stmts? body
      | "if", [test, whenTrue] => do return .ifElse (← test.expr?) (← whenTrue.stmt?) none
      | "if", [test, whenTrue, whenFalse] => do
          return .ifElse (← test.expr?) (← whenTrue.stmt?) (some (← whenFalse.stmt?))
      | "while", [test, body] => do return .whileLoop (← test.expr?) (← body.stmt?)
      | "function", parts => Stmt.function <$> decl? parts
      | "class", name :: methods => do return .classDecl (← name.name?) (← methods? methods)
      | "return", [] => some (.ret 0 none)
      | "return", [value] => do return .ret 0 (some (← value.expr?))
      | _, _ => none
  | _ => none
/-- The statements of several forms. -/
def stmts? : List Form → Option (List Stmt)
  | [] => some []
  | f :: rest => do return (← f.stmt?) :: (← stmts? rest)
/-- The function whose name, parameters and body are given by several forms. -/
def decl? : List Form → Option FunctionDecl
  | name :: .list params :: body => do return .mk (← name.name?) (← params.mapM name?) (← stmts? body)
  | _ => none
/-- The methods of several forms. -/
def methods? : List Form → Option (List FunctionDecl)
  | [] => some []
  | .list (_ :: parts) :: rest => do return (← decl? parts) :: (← methods? rest)
  | _ :: _ => none
end

end Form

/-! ## Trees that tokens write -/

/-- A literal of a token. -/
def Literal.Written : Literal → Prop
  | .number x => ∃ word < Number.infinityWord, x = Number.ofWord word
  | .string s => '"' ∉ s.toList
  | .null | .bool _ => True

/-- A name of a token. -/
def Ident.Written (name : Ident) : Prop := Lexeme .identifier name.name.toList

/-- A token of one of the given kinds with a lexeme of its kind. -/
structure Token.Written (kinds : List TokenKind) (t : Token) : Prop where
  lexeme : Lexeme t.kind t.lexeme.toList
  kind : t.kind ∈ kinds

open Grammar in
mutual
/-- An expression whose names, operators and literals are those of tokens. -/
def Expr.Written : Expr → Prop
  | .lit value => value.Written
  | .group inner => inner.Written
  | .unary op operand => op.Written unaryOperators ∧ operand.Written
  | .binary op left right => (∃ level, level ≠ .logical ∧ op.Written (operators level)) ∧ left.Written ∧ right.Written
  | .logical op left right => op.Written (operators .logical) ∧ left.Written ∧ right.Written
  | .ternary test whenTrue whenFalse => test.Written ∧ whenTrue.Written ∧ whenFalse.Written
  | .var _ name => name.Written
  | .assign _ name value => name.Written ∧ value.Written
  | .update _ name op operand => name.Written ∧ op.Written (compoundOperators ++ stepOperators) ∧ operand.Written
  | .this _ _ => True
  | .array items => Expr.WrittenAll items
  | .index target _ position => target.Written ∧ position.Written
  | .call callee _ args => callee.Written ∧ Expr.WrittenAll args
  | .get object name => object.Written ∧ name.Written
  | .set object name value => object.Written ∧ name.Written ∧ value.Written
/-- Expressions whose names, operators and literals are those of tokens. -/
def Expr.WrittenAll : List Expr → Prop
  | [] => True
  | e :: rest => e.Written ∧ Expr.WrittenAll rest
end

mutual
/-- A statement whose names, operators and literals are those of tokens. -/
def Stmt.Written : Stmt → Prop
  | .expr e | .print e => e.Written
  | .var name init => name.Written ∧ ∀ e ∈ init, e.Written
  | .block body => Stmt.WrittenAll body
  | .ifElse test whenTrue none => test.Written ∧ whenTrue.Written
  | .ifElse test whenTrue (some whenFalse) => test.Written ∧ whenTrue.Written ∧ whenFalse.Written
  | .whileLoop test body => test.Written ∧ body.Written
  | .function decl => decl.Written
  | .classDecl name methods => name.Written ∧ FunctionDecl.WrittenAll methods
  | .ret _ value => ∀ e ∈ value, e.Written
/-- Statements whose names, operators and literals are those of tokens. -/
def Stmt.WrittenAll : List Stmt → Prop
  | [] => True
  | s :: rest => s.Written ∧ Stmt.WrittenAll rest
/-- A function whose names, operators and literals are those of tokens. -/
def FunctionDecl.Written : FunctionDecl → Prop
  | .mk name params body => name.Written ∧ (∀ p ∈ params, p.Written) ∧ Stmt.WrittenAll body
/-- Functions whose names, operators and literals are those of tokens. -/
def FunctionDecl.WrittenAll : List FunctionDecl → Prop
  | [] => True
  | d :: rest => d.Written ∧ FunctionDecl.WrittenAll rest
end

/-! ## Words -/

/-- The tokens whose lexemes hold delimiters of forms. -/
def TokenKind.isDelimiter : TokenKind → Bool
  | .leftParen | .rightParen | .leftBracket | .rightBracket | .comma | .string _ => true
  | _ => false

theorem isPlain_of_namePart {c : Char} (h : isNamePart c = true) : Form.isPlain c = true := by
  have hnone : (Form.stops ++ Form.openers).any isNamePart = false := by decide
  rw [Form.isPlain_iff, ← not_or, ← List.mem_append]
  intro hmem
  exact List.any_eq_false.mp hnone c hmem h

theorem mem_numberText {whole fraction : List Char} {d : Char} (h : d ∈ numberText whole fraction) :
    d ∈ whole ∨ d = '.' ∨ d ∈ fraction := by
  rw [numberText_eq] at h
  refine (List.mem_append.mp h).imp_right fun h => ?_
  cases fraction with
  | nil => cases h
  | cons e fraction => exact List.mem_cons.mp h

/-- The lexeme of a token other than a delimiter is a legible word. -/
theorem Lexeme.legible {kind : TokenKind} {text : String} (h : Lexeme kind text.toList)
    (hkind : kind.isDelimiter = false) : (Form.word text).Legible := by
  have operators : ∀ entry ∈ operatorTable, (entry.2.isDelimiter || entry.1.all Form.isPlain) = true := by decide
  refine .word ?_ ?_
  · rintro rfl
    obtain ⟨c, rest, hcons⟩ := h.exists_cons
    cases hcons
  · generalize text.toList = chars at h
    cases h with
    | operator hmem => exact List.all_eq_true.mp (by simpa [hkind] using operators _ hmem)
    | name hstart hrest _ =>
        exact List.forall_mem_cons.mpr
          ⟨isPlain_of_namePart (namePart_of_nameStart hstart), fun c hc => isPlain_of_namePart (hrest c hc)⟩
    | number hc hwhole hfraction =>
        intro d hd
        have hdigit {e : Char} (he : e.isDigit = true) := isPlain_of_namePart (namePart_of_digit he)
        rcases mem_numberText hd with hd | rfl | hd
        · rcases List.mem_cons.mp hd with rfl | hd
          · exact hdigit hc
          · exact hdigit (hwhole d hd)
        · decide
        · exact hdigit (hfraction d hd)
    | string => cases hkind

theorem wordKind_of_lexeme {kind : TokenKind} {text : String} (h : Lexeme kind text.toList)
    (hkind : kind.isDelimiter = false) : wordKind text = kind := by
  have hscan := h.scan_eq (by rintro payload rfl; cases hkind)
  rw [wordKind, tokens, hscan]
  rfl

/-- The words that tell the nodes of a tree apart, and those of its constants. -/
def tags : List String :=
  ["group", "?:", "=", "index", "call", ".", ".=", "this", "null", "true", "false", ";", "print", "var", "block", "if",
    "while", "function", "method", "class", "return"]

theorem legible_tag {tag : String} (h : tag ∈ tags) : (Form.word tag).Legible := by
  have hplain : ∀ tag ∈ tags, tag ≠ "" ∧ tag.toList.all Form.isPlain = true := by
    simp [tags, Form.isPlain, Form.stops, Form.openers]
  obtain ⟨hne, hall⟩ := hplain tag h
  exact .word hne (List.all_eq_true.mp hall)

/-- The form of a literal is legible and read as the literal. -/
theorem Literal.Written.form {value : Literal} (h : value.Written) :
    value.form.Legible ∧ value.form.expr? = some (.lit value) := by
  cases value with
  | null => exact ⟨legible_tag (by decide), by cbv⟩
  | bool b => cases b <;> exact ⟨legible_tag (by decide), by cbv⟩
  | number x =>
      obtain ⟨word, hword, rfl⟩ := h
      have hlexeme : Lexeme (.number (Number.ofWord word)) (Literal.number (Number.ofWord word)).text.toList :=
        Number.TextStyle.lexeme_text (.inr rfl) hword
      have hkind := wordKind_of_lexeme hlexeme rfl
      exact ⟨hlexeme.legible rfl, by simp [Literal.form, Form.expr?, readWord, hkind]⟩
  | string s => exact ⟨.quoted h, rfl⟩

/-- A name is legible and read as a variable. -/
theorem Ident.Written.word {name : Ident} (h : name.Written) :
    (Form.word name.name).Legible ∧ (Form.word name.name).expr? = some (.var 0 (name.mapLine fun _ => 0)) := by
  have hkind := wordKind_of_lexeme h rfl
  refine ⟨h.legible rfl, ?_⟩
  simp [Form.expr?, readWord, hkind, Ident.mapLine]

/-! ## Nodes -/

section Operators

open Grammar

variable {op : Token}

/-- The kinds of the operators of a tree. -/
def operatorKinds : List TokenKind :=
  unaryOperators ++ operators .logical ++ operators .equality ++ operators .comparison ++ operators .term ++
    operators .factor ++ compoundOperators ++ stepOperators

theorem Token.Written.word {kinds : List TokenKind} (h : op.Written kinds) (hkinds : kinds ⊆ operatorKinds) :
    (Form.word op.lexeme).Legible ∧ wordKind op.lexeme = op.kind := by
  have hplain : ∀ kind ∈ operatorKinds, kind.isDelimiter = false := by decide
  have hkind := hplain _ (hkinds h.kind)
  exact ⟨h.lexeme.legible hkind, wordKind_of_lexeme h.lexeme hkind⟩

theorem readNode_unary (h : op.Written unaryOperators) (e : Expr) :
    readNode op.lexeme [e] = some (.unary (op.mapLine fun _ => 0) e) := by
  obtain ⟨-, hword⟩ := h.word (by decide)
  have hkind := h.kind
  unfold readNode
  rw [hword]
  obtain ⟨kind, lexeme, line⟩ := op
  simp only [unaryOperators, List.mem_cons, List.not_mem_nil, or_false] at hkind
  rcases hkind with rfl | rfl <;> rfl

/-- Operators with two operands are not those of other nodes. -/
theorem readNode_operator {kinds : List TokenKind} (h : op.Written kinds) (hkinds : kinds ⊆ operatorKinds)
    (a b : Expr) : readNode op.lexeme [a, b] = readOperator (op.mapLine fun _ => 0) a b := by
  obtain ⟨-, hword⟩ := h.word hkinds
  have hkind := hkinds h.kind
  unfold readNode
  rw [hword]
  obtain ⟨kind, lexeme, line⟩ := op
  simp only [operatorKinds, unaryOperators, operators, compoundOperators, stepOperators, List.cons_append,
    List.nil_append, List.mem_cons, List.not_mem_nil, or_false] at hkind
  rcases hkind with rfl | rfl | rfl | rfl | rfl | rfl | rfl | rfl | rfl | rfl | rfl | rfl | rfl | rfl | rfl | rfl |
    rfl | rfl | rfl | rfl | rfl | rfl <;> rfl

theorem readNode_binary {level : Level} (hlevel : level ≠ .logical) (h : op.Written (operators level)) (a b : Expr) :
    readNode op.lexeme [a, b] = some (.binary (op.mapLine fun _ => 0) a b) := by
  have hkinds : ∀ kind ∈ operators level,
      (isCompoundAssign kind || isStep kind) = false ∧ Level.logical.isOperator kind = false := by
    cases level with
    | logical => exact absurd rfl hlevel
    | equality | comparison | term | factor => decide
  obtain ⟨hupdate, hlogical⟩ := hkinds _ h.kind
  rw [readNode_operator h (by cases level <;> decide)]
  simp [readOperator, Token.mapLine, hupdate, hlogical]

theorem readNode_logical (h : op.Written (operators .logical)) (a b : Expr) :
    readNode op.lexeme [a, b] = some (.logical (op.mapLine fun _ => 0) a b) := by
  have hkinds : ∀ kind ∈ operators .logical,
      (isCompoundAssign kind || isStep kind) = false ∧ Level.logical.isOperator kind = true := by decide
  obtain ⟨hupdate, hlogical⟩ := hkinds _ h.kind
  rw [readNode_operator h (by decide)]
  simp [readOperator, Token.mapLine, hupdate, hlogical]

theorem readNode_update (h : op.Written (compoundOperators ++ stepOperators)) (name : Ident) (e : Expr) :
    readNode op.lexeme [.var 0 name, e] = some (.update 0 name (op.mapLine fun _ => 0) e) := by
  have hkinds : ∀ kind ∈ compoundOperators ++ stepOperators, (isCompoundAssign kind || isStep kind) = true := by decide
  have hupdate := hkinds _ h.kind
  rw [readNode_operator h (by decide)]
  simp [readOperator, Token.mapLine, hupdate]

end Operators

section Tags

variable (a b c : Expr) (es : List Expr) (name : Ident)

theorem readNode_group : readNode "group" [a] = some (.group a) := by
  have hword : wordKind "group" = .identifier := by cbv
  simp [readNode, hword]

theorem readNode_call : readNode "call" (a :: es) = some (.call a 0 es) := by
  have hword : wordKind "call" = .identifier := by cbv
  simp [readNode, hword]

theorem readNode_index : readNode "index" [a, b] = some (.index a 0 b) := by
  have hword : wordKind "index" = .identifier := by cbv
  simp [readNode, hword]

theorem readNode_ternary : readNode "?:" [a, b, c] = some (.ternary a b c) := by
  have hword : wordKind "?:" = .question := by cbv
  simp [readNode, hword]

theorem readNode_assign : readNode "=" [.var 0 name, a] = some (.assign 0 name a) := by
  have hword : wordKind "=" = .equal := by cbv
  simp [readNode, hword]

theorem readNode_get : readNode "." [a, .var 0 name] = some (.get a name) := by
  have hword : wordKind "." = .dot := by cbv
  simp [readNode, hword]

theorem readNode_set : readNode ".=" [a, .var 0 name, b] = some (.set a name b) := by
  have hword : wordKind ".=" = .dot := by cbv
  simp [readNode, hword]

end Tags

/-! ## Reading back -/

/-- An expression without ids and lines. -/
def Expr.bare (e : Expr) : Expr := e.eraseIds.mapLines fun _ => 0

/-- Expressions without ids and lines. -/
def Expr.bareAll (es : List Expr) : List Expr := Expr.mapLinesAll (fun _ => 0) (Expr.mapIdsAll (fun _ => 0) es)

/-- A form that is legible and read as the given expression. -/
structure Form.ReadAs (f : Form) (e : Expr) : Prop where
  legible : f.Legible
  expr? : f.expr? = some e

/-- The same for several forms. -/
structure Form.ReadAsAll (fs : List Form) (es : List Expr) : Prop where
  legible : ∀ f ∈ fs, f.Legible
  exprs? : Form.exprs? fs = some es

theorem Form.ReadAs.cons {f : Form} {e : Expr} {fs : List Form} {es : List Expr} (h : f.ReadAs e)
    (hs : Form.ReadAsAll fs es) : Form.ReadAsAll (f :: fs) (e :: es) :=
  ⟨List.forall_mem_cons.mpr ⟨h.legible, hs.legible⟩, by simp [Form.exprs?, h.expr?, hs.exprs?]⟩

theorem Form.ReadAsAll.nil : Form.ReadAsAll [] [] := ⟨nofun, rfl⟩

/-- A list is read as the node of its head. -/
theorem Form.ReadAsAll.node {head : String} {fs : List Form} {es : List Expr} {e : Expr} (hs : Form.ReadAsAll fs es)
    (hhead : (Form.word head).Legible) (hnode : readNode head es = some e) :
    (Form.list (.word head :: fs)).ReadAs e :=
  ⟨.list (List.forall_mem_cons.mpr ⟨hhead, hs.legible⟩), by simp [Form.expr?, hs.exprs?, hnode]⟩

theorem Ident.Written.readAs {name : Ident} (h : name.Written) :
    (Form.word name.name).ReadAs (.var 0 (name.mapLine fun _ => 0)) := ⟨h.word.1, h.word.2⟩

mutual
/-- **A written expression is read back from its form.** -/
theorem Expr.Written.readAs : ∀ {e : Expr}, e.Written → e.form.ReadAs e.bare
  | .lit value, h => ⟨(Literal.Written.form h).1, (Literal.Written.form h).2⟩
  | .group inner, h => ((readAs (e := inner) h).cons .nil).node (legible_tag (by decide)) (readNode_group _)
  | .unary op operand, h => ((readAs h.2).cons .nil).node (h.1.word (by decide)).1 (readNode_unary h.1 _)
  | .binary op left right, h => by
      obtain ⟨⟨level, hlevel, hop⟩, hleft, hright⟩ := h
      exact ((readAs hleft).cons ((readAs hright).cons .nil)).node (hop.word (by cases level <;> decide)).1
        (readNode_binary hlevel hop _ _)
  | .logical op left right, h =>
      ((readAs h.2.1).cons ((readAs h.2.2).cons .nil)).node (h.1.word (by decide)).1 (readNode_logical h.1 _ _)
  | .ternary test whenTrue whenFalse, h =>
      ((readAs h.1).cons ((readAs h.2.1).cons ((readAs h.2.2).cons .nil))).node (legible_tag (by decide))
        (readNode_ternary _ _ _)
  | .var _ name, h => Ident.Written.readAs h
  | .assign _ name value, h =>
      (h.1.readAs.cons ((readAs h.2).cons .nil)).node (legible_tag (by decide)) (readNode_assign _ _)
  | .update _ name op operand, h =>
      (h.1.readAs.cons ((readAs h.2.2).cons .nil)).node (h.2.1.word (by decide)).1 (readNode_update h.2.1 _ _)
  | .this _ _, _ => ⟨legible_tag (by decide), by cbv⟩
  | .array items, h =>
      have hitems : Form.ReadAsAll (Expr.forms items) (Expr.bareAll items) := readAsAll h
      ⟨.array hitems.legible, by simp [Expr.form, Form.expr?, hitems.exprs?]; rfl⟩
  | .index target _ position, h =>
      ((readAs h.1).cons ((readAs h.2).cons .nil)).node (legible_tag (by decide)) (readNode_index _ _)
  | .call callee _ args, h =>
      ((readAs h.1).cons (readAsAll h.2)).node (legible_tag (by decide)) (readNode_call _ _)
  | .get object name, h =>
      ((readAs h.1).cons (h.2.readAs.cons .nil)).node (legible_tag (by decide)) (readNode_get _ _)
  | .set object name value, h =>
      ((readAs h.1).cons (h.2.1.readAs.cons ((readAs h.2.2).cons .nil))).node (legible_tag (by decide))
        (readNode_set _ _ _)
theorem Expr.Written.readAsAll : ∀ {es : List Expr}, Expr.WrittenAll es → Form.ReadAsAll (Expr.forms es) (Expr.bareAll es)
  | [], _ => .nil
  | _ :: _, h => (readAs h.1).cons (readAsAll h.2)
end

/-- A statement without ids and lines. -/
def Stmt.bare (s : Stmt) : Stmt := s.eraseIds.mapLines fun _ => 0

/-- A program without ids and lines. -/
def Program.bare (p : Program) : Program := Stmt.mapLinesAll (fun _ => 0) p.eraseIds

/-- A function without ids and lines. -/
def FunctionDecl.bare (d : FunctionDecl) : FunctionDecl := (d.mapIds fun _ => 0).mapLines fun _ => 0

theorem Ident.Written.names? : ∀ {names : List Ident}, (∀ n ∈ names, n.Written) →
    (∀ f ∈ names.map fun n => Form.word n.name, f.Legible) ∧
      (names.map fun n => Form.word n.name).mapM Form.name? = some (names.map (Ident.mapLine fun _ => 0))
  | [], _ => ⟨nofun, rfl⟩
  | n :: names, h => by
      obtain ⟨hn, hnames⟩ := List.forall_mem_cons.mp h
      obtain ⟨hlegible, hread⟩ := Ident.Written.names? hnames
      refine ⟨List.forall_mem_cons.mpr ⟨hn.word.1, hlegible⟩, ?_⟩
      simp only [List.map_cons, List.mapM_cons, hread]
      rfl

theorem legible_node {tag : String} {fs : List Form} (htag : tag ∈ tags) (hfs : ∀ f ∈ fs, f.Legible) :
    (Form.list (.word tag :: fs)).Legible :=
  .list (List.forall_mem_cons.mpr ⟨legible_tag htag, hfs⟩)

mutual
/-- **A written statement is read back from its form.** -/
theorem Stmt.Written.readAs : ∀ {s : Stmt}, s.Written → s.form.Legible ∧ s.form.stmt? = some s.bare
  | .expr e, h | .print e, h => by
      have he := Expr.Written.readAs (e := e) h
      refine ⟨legible_node (by decide) (by simp [he.legible]), ?_⟩
      simp only [Stmt.form, Form.stmt?, he.expr?]
      rfl
  | .var name none, h => by
      refine ⟨legible_node (by decide) (by simp [h.1.word.1]), ?_⟩
      simp only [Stmt.form, Form.stmt?, Form.name?]
      rfl
  | .var name (some init), h => by
      have he := Expr.Written.readAs (h.2 init rfl)
      refine ⟨legible_node (by decide) (by simp [h.1.word.1, he.legible]), ?_⟩
      simp only [Stmt.form, Form.stmt?, Form.name?, he.expr?]
      rfl
  | .block body, h => by
      have hbody : Stmt.WrittenAll body := h
      obtain ⟨hlegible, hread⟩ := Stmt.Written.readAsAll hbody
      refine ⟨legible_node (by decide) hlegible, ?_⟩
      simp only [Stmt.form, Form.stmt?, hread]
      rfl
  | .ifElse test whenTrue none, h => by
      have he := Expr.Written.readAs h.1
      obtain ⟨hlegible, hread⟩ := Stmt.Written.readAs h.2
      refine ⟨legible_node (by decide) (by simp [he.legible, hlegible]), ?_⟩
      simp only [Stmt.form, Form.stmt?, he.expr?, hread]
      rfl
  | .ifElse test whenTrue (some whenFalse), h => by
      have he := Expr.Written.readAs h.1
      obtain ⟨hlegible, hread⟩ := Stmt.Written.readAs h.2.1
      obtain ⟨hlegible', hread'⟩ := Stmt.Written.readAs h.2.2
      refine ⟨legible_node (by decide) (by simp [he.legible, hlegible, hlegible']), ?_⟩
      simp only [Stmt.form, Form.stmt?, he.expr?, hread, hread']
      rfl
  | .whileLoop test body, h => by
      have he := Expr.Written.readAs h.1
      obtain ⟨hlegible, hread⟩ := Stmt.Written.readAs h.2
      refine ⟨legible_node (by decide) (by simp [he.legible, hlegible]), ?_⟩
      simp only [Stmt.form, Form.stmt?, he.expr?, hread]
      rfl
  | .function decl, h => by
      obtain ⟨parts, hform, hlegible, hread⟩ := FunctionDecl.Written.readAs (d := decl) h
      rw [Stmt.form, hform]
      refine ⟨legible_node (by decide) hlegible, ?_⟩
      simp only [Form.stmt?, hread]
      rfl
  | .classDecl name methods, h => by
      obtain ⟨hlegible, hread⟩ := FunctionDecl.Written.readAsAll h.2
      refine ⟨legible_node (by decide) (List.forall_mem_cons.mpr ⟨h.1.word.1, hlegible⟩), ?_⟩
      simp only [Stmt.form, Form.stmt?, Form.name?, hread]
      rfl
  | .ret _ none, _ => ⟨legible_node (by decide) nofun, rfl⟩
  | .ret _ (some value), h => by
      have he := Expr.Written.readAs (h value rfl)
      refine ⟨legible_node (by decide) (by simp [he.legible]), ?_⟩
      simp only [Stmt.form, Form.stmt?, he.expr?]
      rfl
theorem Stmt.Written.readAsAll : ∀ {ss : List Stmt}, Stmt.WrittenAll ss →
    (∀ f ∈ Stmt.forms ss, f.Legible) ∧ Form.stmts? (Stmt.forms ss) = some (Program.bare ss)
  | [], _ => ⟨nofun, rfl⟩
  | s :: ss, h => by
      obtain ⟨hlegible, hread⟩ := Stmt.Written.readAs h.1
      obtain ⟨hlegibles, hreads⟩ := Stmt.Written.readAsAll h.2
      refine ⟨List.forall_mem_cons.mpr ⟨hlegible, hlegibles⟩, ?_⟩
      simp only [Stmt.forms, Form.stmts?, hread, hreads]
      rfl
theorem FunctionDecl.Written.readAs : ∀ {d : FunctionDecl}, d.Written → ∃ parts,
    (∀ word, d.form word = .list (.word word :: parts)) ∧ (∀ f ∈ parts, f.Legible) ∧ Form.decl? parts = some d.bare
  | .mk name params body, h => by
      obtain ⟨hname, hparams, hbody⟩ := h
      obtain ⟨hparamForms, hnames⟩ := Ident.Written.names? hparams
      obtain ⟨hlegible, hread⟩ := Stmt.Written.readAsAll hbody
      refine ⟨_, fun _ => rfl, ?_, ?_⟩
      · exact List.forall_mem_cons.mpr ⟨hname.word.1, List.forall_mem_cons.mpr ⟨.list hparamForms, hlegible⟩⟩
      · simp only [Form.decl?, Form.name?, hnames, hread]
        rfl
theorem FunctionDecl.Written.readAsAll : ∀ {ds : List FunctionDecl}, FunctionDecl.WrittenAll ds →
    (∀ f ∈ FunctionDecl.forms "method" ds, f.Legible) ∧
      Form.methods? (FunctionDecl.forms "method" ds) =
        some (FunctionDecl.mapLinesAll (fun _ => 0) (FunctionDecl.mapIdsAll (fun _ => 0) ds))
  | [], _ => ⟨nofun, rfl⟩
  | d :: ds, h => by
      obtain ⟨parts, hform, hlegible, hread⟩ := FunctionDecl.Written.readAs h.1
      obtain ⟨hlegibles, hreads⟩ := FunctionDecl.Written.readAsAll h.2
      rw [FunctionDecl.forms, hform]
      refine ⟨List.forall_mem_cons.mpr ⟨.list ?_, hlegibles⟩, ?_⟩
      · exact List.forall_mem_cons.mpr ⟨legible_tag (by decide), hlegible⟩
      · simp only [Form.methods?, hread, hreads]
        rfl
end

end Scriptlet
