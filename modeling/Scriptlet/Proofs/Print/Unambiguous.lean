import Mathlib
import Scriptlet.Proofs.Grammar.Sound
import Scriptlet.Proofs.Print.Reader

/-!
# Printed programs are unambiguous

The parser makes its trees of the tokens of a source, so a parsed program without infinite numbers is written by tokens
and can be read back from its printed text.

* `Token.Lawful` — a token with a lexeme of its kind, and with a finite value if it is a number.
* `Grammar.DerivesStmt.written` — what is derived from lawful tokens is written by them.

Principal result: `Program.text_unambiguous`.
-/

set_option autoImplicit false

namespace Scriptlet

/-! ## Tokens -/

/-- A token with a lexeme of its kind, and with a finite value if it is a number. -/
structure Token.Lawful (t : Token) : Prop where
  lexeme : Lexeme t.kind t.lexeme.toList
  finite : ∀ x, t.kind = .number x → (Literal.number x).Written

/-- A float that is neither infinite nor NaN. -/
def Number.IsFinite (x : Float) : Prop := ∃ negative units, Number.view x = .finite negative units

theorem Number.nearestWord_le (num den : Nat) : Number.nearestWord num den ≤ Number.infinityWord :=
  Nat.min_le_left _ _

theorem Number.view_infinityWord : Number.view (Number.ofWord Number.infinityWord) = .infinite false := by
  decide +kernel

/-- Only the rules for numbers and strings give tokens a value. -/
theorem Lexeme.value {kind : TokenKind} {lexeme : List Char} (h : Lexeme kind lexeme) :
    ((∀ x, kind ≠ .number x) ∧ ∀ s, kind ≠ .string s) ∨ (∃ d : Number.Decimal, kind = .number d.toFloat) ∨
      ∃ body, '"' ∉ body ∧ kind = .string (String.ofList body) := by
  have operators : ∀ entry ∈ operatorTable, (∀ x, entry.2 ≠ .number x) ∧ ∀ s, entry.2 ≠ .string s := by
    simp [operatorTable]
  have keywords : ∀ entry ∈ keywordTable, (∀ x, entry.2 ≠ .number x) ∧ ∀ s, entry.2 ≠ .string s := by
    simp [keywordTable]
  cases h with
  | operator hmem => exact .inl (operators _ hmem)
  | name _ _ hname =>
      rcases hname with hmem | ⟨rfl, -⟩
      · exact .inl (keywords _ hmem)
      · exact .inl ⟨fun _ => TokenKind.noConfusion, fun _ => TokenKind.noConfusion⟩
  | number => exact .inr (.inl ⟨_, rfl⟩)
  | string hbody => exact .inr (.inr ⟨_, hbody, rfl⟩)

/-- The finite numbers of a source are floats without sign. -/
theorem Lexeme.number_written {x : Float} {lexeme : List Char} (h : Lexeme (.number x) lexeme)
    (hfinite : Number.IsFinite x) : (Literal.number x).Written := by
  rcases h.value with hnone | ⟨d, hd⟩ | ⟨_, _, hstring⟩
  · exact absurd rfl (hnone.1 x)
  · obtain rfl := TokenKind.number.inj hd
    refine ⟨d.toWord, lt_of_le_of_ne (Number.nearestWord_le _ _) ?_, rfl⟩
    intro hword
    obtain ⟨negative, units, hview⟩ := hfinite
    have hinfinite : d.toFloat = Number.ofWord Number.infinityWord := congrArg Number.ofWord hword
    rw [hinfinite, Number.view_infinityWord] at hview
    cases hview
  · cases hstring

theorem Lexeme.string_written {s : String} {lexeme : List Char} (h : Lexeme (.string s) lexeme) :
    (Literal.string s).Written := by
  rcases h.value with hnone | ⟨d, hd⟩ | ⟨body, hbody, hstring⟩
  · exact absurd rfl (hnone.2 s)
  · cases hd
  · obtain rfl := TokenKind.string.inj hstring
    rwa [Literal.Written, String.toList_ofList]

theorem tokens_lawful {source : String} (hfinite : ∀ t ∈ tokens source, ∀ x, t.kind = .number x → Number.IsFinite x)
    {t : Token} (ht : t ∈ tokens source) (hend : t.kind ≠ .eof) : t.Lawful := by
  have hlexeme : Lexeme t.kind t.lexeme.toList := by
    rcases mem_tokens ht with rfl | hlexeme
    · exact absurd rfl hend
    · exact hlexeme
  refine ⟨hlexeme, fun x hx => ?_⟩
  rw [hx] at hlexeme
  exact hlexeme.number_written (hfinite t ht x hx)

/-! ## Trees of lawful tokens -/

namespace Grammar

/-- What is derived under a symbol is written by tokens. -/
def ExprSymbol.Written : (s : ExprSymbol) → s.Tree → Prop
  | .arguments, es => Expr.WrittenAll es
  | .expression, e | .ternary, e | .binary _, e | .operand _, e | .unary, e | .call, e | .primary, e => e.Written

section Lawful

variable {t : Token} (h : t.Lawful)

include h

theorem name_written (hkind : t.kind = .identifier) : t.ident.Written := by
  have hlexeme := h.lexeme
  rwa [hkind] at hlexeme

theorem string_written {s : String} (hkind : t.kind = .string s) : (Literal.string s).Written := by
  have hlexeme := h.lexeme
  rw [hkind] at hlexeme
  exact hlexeme.string_written

end Lawful

theorem one_written : (Literal.number 1.0).Written := ⟨0x3FF0000000000000, by decide, rfl⟩

theorem DerivesExpr.written {s : ExprSymbol} {ts : List Token} {t : s.Tree} (h : DerivesExpr s ts t)
    (hts : ∀ t ∈ ts, t.Lawful) : s.Written t := by
  induction h with
  | plain _ ih | unconditional _ ih | single _ ih | logicalOperand _ ih | equalityOperand _ ih
  | comparisonOperand _ ih | termOperand _ ih | factorOperand _ ih | callUnary _ ih | primaryCall _ ih => exact ih hts
  | trueLit | falseLit | nullLit | arrayNone | this => trivial
  | number hkind => exact (hts _ List.mem_cons_self).finite _ hkind
  | string hkind => exact string_written (hts _ List.mem_cons_self) hkind
  | name hkind => exact name_written (hts _ List.mem_cons_self) hkind
  | one _ ih => exact ⟨ih hts, trivial⟩
  | group _ _ _ ih | array _ _ _ ih =>
      simp only [List.forall_mem_append, List.forall_mem_cons] at hts
      exact ih hts.1.2
  | get _ _ hkind ih =>
      simp only [List.forall_mem_append, List.forall_mem_cons] at hts
      exact ⟨ih hts.1, name_written hts.2.2.1 hkind⟩
  | callNone _ _ _ ih =>
      simp only [List.forall_mem_append] at hts
      exact ⟨ih hts.1, trivial⟩
  | call _ _ _ _ _ ih ih' | index _ _ _ _ ih ih' =>
      simp only [List.forall_mem_append, List.forall_mem_cons] at hts
      exact ⟨ih hts.1.1, ih' hts.1.2.2⟩
  | more _ _ _ ih ih' | assign _ _ _ ih ih' =>
      simp only [List.forall_mem_append, List.forall_mem_cons] at hts
      exact ⟨ih hts.1, ih' hts.2.2⟩
  | set _ _ _ ih ih' =>
      simp only [List.forall_mem_append, List.forall_mem_cons] at hts
      exact ⟨(ih hts.1).1, (ih hts.1).2, ih' hts.2.2⟩
  | compound _ hkind _ ih ih' =>
      simp only [List.forall_mem_append, List.forall_mem_cons] at hts
      exact ⟨ih hts.1, ⟨hts.2.1.lexeme, List.mem_append_left _ hkind⟩, ih' hts.2.2⟩
  | step _ hkind ih =>
      simp only [List.forall_mem_append, List.forall_mem_cons] at hts
      exact ⟨ih hts.1, ⟨hts.2.1.lexeme, List.mem_append_right _ hkind⟩, one_written⟩
  | conditional _ _ _ _ _ ih ih' ih'' =>
      simp only [List.forall_mem_append, List.forall_mem_cons] at hts
      exact ⟨ih hts.1.1, ih' hts.1.2.2, ih'' hts.2.2⟩
  | unary hkind _ ih =>
      simp only [List.forall_mem_cons] at hts
      exact ⟨⟨hts.1.lexeme, hkind⟩, ih hts.2⟩
  | joinLogical _ hkind _ ih ih' =>
      simp only [List.forall_mem_append, List.forall_mem_cons] at hts
      exact ⟨⟨hts.2.1.lexeme, hkind⟩, ih hts.1, ih' hts.2.2⟩
  | joinBinary hlevel _ hkind _ ih ih' =>
      simp only [List.forall_mem_append, List.forall_mem_cons] at hts
      exact ⟨⟨_, hlevel, hts.2.1.lexeme, hkind⟩, ih hts.1, ih' hts.2.2⟩

theorem Clause.written {ts : List Token} {o : Option Expr} (h : Clause ts o) (hts : ∀ t ∈ ts, t.Lawful) :
    ∀ e ∈ o, e.Written := by
  cases h with
  | none => exact nofun
  | some he =>
      rintro e ⟨⟩
      exact he.written hts

theorem Variable.written {ts : List Token} {s : Stmt} (h : Variable ts s) (hts : ∀ t ∈ ts, t.Lawful) : s.Written := by
  cases h with
  | bare hkind _ => exact ⟨name_written (hts _ List.mem_cons_self) hkind, nofun⟩
  | init hkind _ he _ =>
      simp only [List.forall_mem_append, List.forall_mem_cons] at hts
      refine ⟨name_written hts.1.1 hkind, ?_⟩
      rintro e ⟨⟩
      exact he.written hts.1.2.2

theorem Names.written {ts : List Token} {names : List Ident} (h : Names ts names) (hts : ∀ t ∈ ts, t.Lawful) :
    ∀ n ∈ names, n.Written := by
  induction h with
  | one hkind => exact List.forall_mem_singleton.mpr (name_written (hts _ List.mem_cons_self) hkind)
  | more hkind _ _ ih =>
      simp only [List.forall_mem_cons] at hts
      exact List.forall_mem_cons.mpr ⟨name_written hts.1 hkind, ih hts.2.2⟩

theorem Parameters.written {ts : List Token} {names : List Ident} (h : Parameters ts names)
    (hts : ∀ t ∈ ts, t.Lawful) : ∀ n ∈ names, n.Written := by
  cases h with
  | none => exact nofun
  | some hnames _ => exact hnames.written hts

theorem ForInit.written {ts : List Token} {o : Option Stmt} (h : ForInit ts o) (hts : ∀ t ∈ ts, t.Lawful) :
    ∀ s ∈ o, s.Written := by
  cases h with
  | none _ => exact nofun
  | var _ hs =>
      rintro s ⟨⟩
      exact hs.written fun t ht => hts t (List.mem_cons_of_mem _ ht)
  | expr he _ =>
      rintro s ⟨⟩
      exact he.written fun t ht => hts t (List.mem_append_left _ ht)

/-- A loop is written by tokens if its parts are. -/
theorem written_forLoop {init : Option Stmt} {test step : Option Expr} {body : Stmt} (hinit : ∀ s ∈ init, s.Written)
    (htest : ∀ e ∈ test, e.Written) (hstep : ∀ e ∈ step, e.Written) (hbody : body.Written) :
    (Stmt.forLoop init test step body).Written := by
  cases init <;> cases test <;> cases step <;>
    simp_all [Stmt.forLoop, Stmt.Written, Stmt.WrittenAll, Expr.Written, Literal.Written]

/-- What is derived under a symbol is written by tokens. -/
def StmtSymbol.Written : (s : StmtSymbol) → s.Tree → Prop
  | .declarations, ss => Stmt.WrittenAll ss
  | .declaration _, s | .statement _, s => s.Written
  | .callable, d => d.Written
  | .callables, ds => FunctionDecl.WrittenAll ds

theorem DerivesStmt.written {nearest : Bool} {s : StmtSymbol} {ts : List Token} {t : s.Tree}
    (h : DerivesStmt nearest s ts t) (hts : ∀ t ∈ ts, t.Lawful) : s.Written t := by
  induction h with
  | noDeclaration | noCallable => trivial
  | statement _ ih => exact ih hts
  | «variable» _ hs => exact hs.written fun t ht => hts t (List.mem_cons_of_mem _ ht)
  | ret _ hvalue _ => exact hvalue.written fun t ht => hts t (by simp [ht])
  | print _ he _ | expr he _ => exact he.written fun t ht => hts t (by simp [ht])
  | ifThen _ _ he _ _ ih | whileLoop _ _ he _ _ ih =>
      simp only [List.forall_mem_append, List.forall_mem_cons] at hts
      exact ⟨he.written hts.1.2.2, ih hts.2.2⟩
  | ifElse _ _ he _ _ _ _ _ ih ih' =>
      simp only [List.forall_mem_append, List.forall_mem_cons] at hts
      exact ⟨he.written hts.1.1.2.2, ih hts.1.2.2, ih' hts.2.2⟩
  | forLoop _ _ hi hc _ he _ _ ih =>
      refine written_forLoop (hi.written ?_) (hc.written ?_) (he.written ?_) (ih ?_) <;>
        exact fun t ht => hts t (by simp [ht])
  | callable hkind _ hparams _ _ _ _ ih =>
      have hname := name_written (hts _ List.mem_cons_self) hkind
      have hparams := hparams.written fun t ht => hts t (by simp [ht])
      exact ⟨hname, hparams, ih fun t ht => hts t (by simp [ht])⟩
  | classDecl _ hkind _ _ _ ih =>
      simp only [List.forall_mem_append, List.forall_mem_cons] at hts
      exact ⟨name_written hts.1.2.1 hkind, ih hts.1.2.2.2⟩
  | function _ _ ih | block _ _ _ ih => exact ih fun t ht => hts t (by simp [ht])
  | declarations _ _ ih ihs | callables _ _ ih ihs =>
      simp only [List.forall_mem_append] at hts
      exact ⟨ih hts.1, ihs hts.2⟩

end Grammar

/-! ## Programs -/

/-- A source whose number tokens are finite. -/
def FiniteNumbers (source : String) : Prop := ∀ t ∈ tokens source, ∀ x, t.kind = .number x → Number.IsFinite x

/-- A source without number tokens holds no infinite number. -/
theorem finiteNumbers_of_all {source : String}
    (h : (tokens source).all (fun t => match t.kind with | .number _ => false | _ => true) = true) :
    FiniteNumbers source := by
  intro t ht x hx
  have hnone := List.all_eq_true.mp h t ht
  rw [hx] at hnone
  cases hnone

theorem parse_written {firstId : NodeId} {source : String} {p : Program}
    (h : (parse firstId (tokens source)).program = .ok p) (hfinite : FiniteNumbers source) : Stmt.WrittenAll p := by
  obtain ⟨ts, line, htokens, hplain⟩ := tokens_spec source
  have hp := h
  rw [htokens] at hp
  have hderived := Grammar.program_sound (fun t ht => (hplain t ht).notEnd) rfl hp
  refine Grammar.DerivesStmt.written hderived fun t ht => tokens_lawful hfinite ?_ (hplain t ht).notEnd
  rw [htokens]
  exact List.mem_append_left _ ht

/-- **The printed form of a program is unambiguous.**  Two programs that the parser makes of sources with finite numbers
only, and that are printed alike, differ in node ids and lines at most. -/
theorem Program.text_unambiguous {source source' : String} {firstId firstId' : NodeId} {p p' : Program}
    (hfinite : FiniteNumbers source) (hfinite' : FiniteNumbers source')
    (hp : (parse firstId (tokens source)).program = .ok p) (hp' : (parse firstId' (tokens source')).program = .ok p')
    (htext : p.text = p'.text) :
    Stmt.mapLinesAll (fun _ => 0) p.eraseIds = Stmt.mapLinesAll (fun _ => 0) p'.eraseIds := by
  obtain ⟨hlegible, hread⟩ := Stmt.Written.readAsAll (parse_written hp hfinite)
  obtain ⟨hlegible', hread'⟩ := Stmt.Written.readAsAll (parse_written hp' hfinite')
  have hforms : Stmt.forms p = Stmt.forms p' := by
    refine Form.texts_unique hlegible hlegible' ?_
    rw [Stmt.texts_forms, Stmt.texts_forms]
    exact htext
  rw [hforms, hread'] at hread
  exact (Option.some.inj hread).symm

/-- The tree of `print f(-x, "a (b)");` on the given line. -/
def callTree (id : NodeId) (line : Nat) : Program :=
  [.print (.call (.var id ⟨"f", line⟩) line
    [.unary ⟨.minus, "-", line⟩ (.var (id + 1) ⟨"x", line⟩), .lit (.string "a (b)")])]

/-- The same statement on different lines, with different node ids and blanks. -/
theorem Program.text_unambiguous_call :
    (parse 0 (tokens "print f(-x, \"a (b)\");")).program = .ok (callTree 0 1) ∧
      (parse 7 (tokens "\nprint f ( - x , \"a (b)\" ) ;")).program = .ok (callTree 7 2) ∧
      Stmt.mapLinesAll (fun _ => 0) (callTree 0 1).eraseIds = Stmt.mapLinesAll (fun _ => 0) (callTree 7 2).eraseIds := by
  have hp : (parse 0 (tokens "print f(-x, \"a (b)\");")).program = .ok (callTree 0 1) := by cbv
  have hp' : (parse 7 (tokens "\nprint f ( - x , \"a (b)\" ) ;")).program = .ok (callTree 7 2) := by cbv
  refine ⟨hp, hp', Program.text_unambiguous (finiteNumbers_of_all ?_) (finiteNumbers_of_all ?_) hp hp' ?_⟩
  · cbv
  · cbv
  · rfl

end Scriptlet
