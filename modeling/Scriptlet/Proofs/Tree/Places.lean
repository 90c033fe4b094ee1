import Scriptlet.Proofs.Grammar.Sound
import Scriptlet.Proofs.Scoping.Steps
import Scriptlet.Proofs.Token.Positions

/-!
# Places in trees

A tree remembers where it comes from: the names and operators in it have lines, and so have calls, element accesses,
`this` and `return`.

* `Expr.places`, `Stmt.places`, `FunctionDecl.places` — the spellings and lines of the tokens that a tree remembers.
* `ResolveStep.blamed` — the places at which steps of the resolver may report an error.

Principal results: `parse_places` — the places of a parsed program are those of tokens of its source;
`resolve_places` — the resolver reports errors at places of the program only.
-/

set_option autoImplicit false

namespace Scriptlet

mutual
/-- The places in an expression. -/
def Expr.places : Expr → List Ident
  | .lit _ => []
  | .group inner => inner.places
  | .unary op operand => op.ident :: operand.places
  | .binary op left right => op.ident :: (left.places ++ right.places)
  | .logical op left right => op.ident :: (left.places ++ right.places)
  | .ternary test whenTrue whenFalse => test.places ++ whenTrue.places ++ whenFalse.places
  | .var _ name => [name]
  | .assign _ name value => name :: value.places
  | .update _ name op operand => name :: op.ident :: operand.places
  | .this _ line => [⟨thisName, line⟩]
  | .array items => Expr.placesAll items
  | .index target line position => ⟨"]", line⟩ :: (target.places ++ position.places)
  | .call callee line args => ⟨")", line⟩ :: (callee.places ++ Expr.placesAll args)
  | .get object name => name :: object.places
  | .set object name value => name :: (object.places ++ value.places)
/-- The places in expressions. -/
def Expr.placesAll : List Expr → List Ident
  | [] => []
  | e :: rest => e.places ++ Expr.placesAll rest
end

/-- The places in an expression that may be missing. -/
def Expr.placesOpt : Option Expr → List Ident
  | none => []
  | some e => e.places

mutual
/-- The places in a statement. -/
def Stmt.places : Stmt → List Ident
  | .expr e => e.places
  | .print e => e.places
  | .var name init => name :: Expr.placesOpt init
  | .block body => Stmt.placesAll body
  | .ifElse test whenTrue none => test.places ++ whenTrue.places
  | .ifElse test whenTrue (some whenFalse) => test.places ++ whenTrue.places ++ whenFalse.places
  | .whileLoop test body => test.places ++ body.places
  | .function decl => decl.places
  | .classDecl name methods => name :: FunctionDecl.placesAll methods
  | .ret line value => ⟨"return", line⟩ :: Expr.placesOpt value
/-- The places in statements. -/
def Stmt.placesAll : List Stmt → List Ident
  | [] => []
  | s :: rest => s.places ++ Stmt.placesAll rest
/-- The places in a function. -/
def FunctionDecl.places : FunctionDecl → List Ident
  | .mk name params body => name :: (params ++ Stmt.placesAll body)
/-- The places in functions. -/
def FunctionDecl.placesAll : List FunctionDecl → List Ident
  | [] => []
  | d :: rest => d.places ++ FunctionDecl.placesAll rest
end

/-! ## Places of derived trees -/

namespace Grammar

/-- The places of what is derived under a symbol. -/
def ExprSymbol.places : (s : ExprSymbol) → s.Tree → List Ident
  | .arguments, es => Expr.placesAll es
  | .expression, e | .ternary, e | .binary _, e | .operand _, e | .unary, e | .call, e | .primary, e => e.places

/-- A token that stands at one of the given places and is spelled like its kind. -/
structure Stands (S : List Ident) (t : Token) : Prop where
  place : t.ident ∈ S
  spelled : t.Spelled

section Stands

variable {S : List Ident}

/-- A token of which only the line is kept. -/
theorem Stands.line {t : Token} {kind : TokenKind} {text : String} (h : Stands S t) (hkind : t.kind = kind)
    (htext : kind.spelling? = some text) : ⟨text, t.line⟩ ∈ S := by
  have hlexeme : t.lexeme = text := h.spelled text (hkind ▸ htext)
  rw [← hlexeme]
  exact h.place

theorem DerivesExpr.places {s : ExprSymbol} {ts : List Token} {t : s.Tree} (h : DerivesExpr s ts t)
    (hts : ∀ t ∈ ts, Stands S t) : s.places t ⊆ S := by
  induction h with
  | plain _ ih | unconditional _ ih | single _ ih | logicalOperand _ ih | equalityOperand _ ih
  | comparisonOperand _ ih | termOperand _ ih | factorOperand _ ih | callUnary _ ih | primaryCall _ ih => exact ih hts
  | number | string | trueLit | falseLit | nullLit | arrayNone => exact List.nil_subset S
  | one _ ih => simpa [ExprSymbol.places, Expr.placesAll] using ih hts
  -- Of these four the tree keeps a line only; the spelling follows from the kind of the token.
  | this hkind =>
      have hthis := (hts _ List.mem_cons_self).line hkind rfl
      simpa [ExprSymbol.places, Expr.places] using hthis
  | call _ _ _ _ hkind ih ih' =>
      simp only [List.forall_mem_append, List.forall_mem_cons] at hts
      have hclose := hts.2.1.line hkind rfl
      simp_all [ExprSymbol.places, Expr.places]
  | callNone _ _ hkind ih =>
      simp only [List.forall_mem_append, List.forall_mem_cons] at hts
      have hclose := hts.2.2.1.line hkind rfl
      simp_all [ExprSymbol.places, Expr.places, Expr.placesAll]
  | index _ _ _ hkind ih ih' =>
      simp only [List.forall_mem_append, List.forall_mem_cons] at hts
      have hclose := hts.2.1.line hkind rfl
      simp_all [ExprSymbol.places, Expr.places]
  | name | unary | joinLogical | joinBinary | get | group | array | more | assign | set | compound | step
  | conditional =>
      simp only [List.forall_mem_append, List.forall_mem_cons] at hts
      simp_all [ExprSymbol.places, Expr.places, Expr.placesAll, Stands.place]

theorem Clause.places {ts : List Token} {o : Option Expr} (h : Clause ts o) (hts : ∀ t ∈ ts, Stands S t) :
    Expr.placesOpt o ⊆ S := by
  cases h with
  | none => exact List.nil_subset S
  | some he => exact he.places hts

theorem Variable.places {ts : List Token} {s : Stmt} (h : Variable ts s) (hts : ∀ t ∈ ts, Stands S t) :
    s.places ⊆ S := by
  cases h with
  | bare _ _ =>
      have hname := (hts _ List.mem_cons_self).place
      simpa [Stmt.places, Expr.placesOpt] using hname
  | init _ _ he _ =>
      have hname := (hts _ List.mem_cons_self).place
      have hvalue := he.places fun t ht => hts t (by simp [ht])
      exact List.cons_subset.mpr ⟨hname, hvalue⟩

theorem Names.places {ts : List Token} {names : List Ident} (h : Names ts names) (hts : ∀ t ∈ ts, Stands S t) :
    names ⊆ S := by
  induction h with
  | one _ => simpa using (hts _ List.mem_cons_self).place
  | more _ _ _ ih =>
      have hname := (hts _ List.mem_cons_self).place
      have hnames := ih fun t ht => hts t (by simp [ht])
      exact List.cons_subset.mpr ⟨hname, hnames⟩

theorem Parameters.places {ts : List Token} {names : List Ident} (h : Parameters ts names)
    (hts : ∀ t ∈ ts, Stands S t) : names ⊆ S := by
  cases h with
  | none => exact List.nil_subset S
  | some hnames _ => exact hnames.places hts

/-- The places of what is derived under a symbol. -/
def StmtSymbol.places : (s : StmtSymbol) → s.Tree → List Ident
  | .declarations, ss => Stmt.placesAll ss
  | .declaration _, s | .statement _, s => s.places
  | .callable, d => d.places
  | .callables, ds => FunctionDecl.placesAll ds

/-- The places of a loop are those of its parts. -/
theorem places_forLoop {init : Option Stmt} {test step : Option Expr} {body : Stmt}
    (hinit : ∀ s ∈ init, s.places ⊆ S) (htest : Expr.placesOpt test ⊆ S) (hstep : Expr.placesOpt step ⊆ S)
    (hbody : body.places ⊆ S) : (Stmt.forLoop init test step body).places ⊆ S := by
  cases init <;> cases test <;> cases step <;>
    simp_all [Stmt.forLoop, Stmt.places, Stmt.placesAll, Expr.places, Expr.placesOpt]

theorem ForInit.places {ts : List Token} {o : Option Stmt} (h : ForInit ts o) (hts : ∀ t ∈ ts, Stands S t) :
    ∀ s ∈ o, s.places ⊆ S := by
  cases h with
  | none _ => exact nofun
  | var _ hs =>
      rintro s ⟨⟩
      exact hs.places fun t ht => hts t (List.mem_cons_of_mem _ ht)
  | expr he _ =>
      rintro s ⟨⟩
      exact he.places fun t ht => hts t (List.mem_append_left _ ht)

theorem DerivesStmt.places {nearest : Bool} {s : StmtSymbol} {ts : List Token} {t : s.Tree}
    (h : DerivesStmt nearest s ts t) (hts : ∀ t ∈ ts, Stands S t) : s.places t ⊆ S := by
  induction h with
  | noDeclaration | noCallable => exact List.nil_subset S
  | statement _ ih => exact ih hts
  | «variable» _ hs => exact hs.places fun t ht => hts t (List.mem_cons_of_mem _ ht)
  | ret hkind hvalue _ =>
      simp only [List.forall_mem_append, List.forall_mem_cons] at hts
      have hline := hts.1.1.line hkind rfl
      have hvalue := hvalue.places hts.1.2
      exact List.cons_subset.mpr ⟨hline, hvalue⟩
  | print _ he _ | expr he _ =>
      exact he.places fun t ht => hts t (by simp [ht])
  | ifThen _ _ he _ _ ih | whileLoop _ _ he _ _ ih =>
      simp only [List.forall_mem_append, List.forall_mem_cons] at hts
      exact List.append_subset.mpr ⟨he.places hts.1.2.2, ih hts.2.2⟩
  | ifElse _ _ he _ _ _ _ _ ih ih' =>
      simp only [List.forall_mem_append, List.forall_mem_cons] at hts
      have htest := he.places hts.1.1.2.2
      exact List.append_subset.mpr ⟨List.append_subset.mpr ⟨htest, ih hts.1.2.2⟩, ih' hts.2.2⟩
  | forLoop _ _ hi hc _ he _ _ ih =>
      refine places_forLoop (hi.places ?_) (hc.places ?_) (he.places ?_) (ih ?_) <;>
        exact fun t ht => hts t (by simp [ht])
  | callable _ _ hparams _ _ _ _ ih =>
      have hname := (hts _ List.mem_cons_self).place
      have hparams := hparams.places fun t ht => hts t (by simp [ht])
      have hbody := ih fun t ht => hts t (by simp [ht])
      exact List.cons_subset.mpr ⟨hname, List.append_subset.mpr ⟨hparams, hbody⟩⟩
  | classDecl _ _ _ _ _ ih =>
      simp only [List.forall_mem_append, List.forall_mem_cons] at hts
      obtain ⟨⟨-, hname, -, hmethods⟩, -⟩ := hts
      exact List.cons_subset.mpr ⟨hname.place, ih hmethods⟩
  | function _ _ ih | block _ _ _ ih => exact ih fun t ht => hts t (by simp [ht])
  | declarations _ _ ih ihs | callables _ _ ih ihs =>
      simp only [List.forall_mem_append] at hts
      exact List.append_subset.mpr ⟨ih hts.1, ihs hts.2⟩

end Stands

end Grammar

/-- **The places of a parsed program are those of tokens of its source.** -/
theorem parse_places {firstId : NodeId} {source : String} {p : Program}
    (h : (parse firstId (tokens source)).program = .ok p) : Stmt.placesAll p ⊆ (tokens source).map Token.ident := by
  obtain ⟨ts, line, htokens, hplain⟩ := tokens_spec source
  have hp := h
  rw [htokens] at hp
  have hderived := Grammar.program_sound (fun t ht => (hplain t ht).notEnd) rfl hp
  refine Grammar.DerivesStmt.places hderived fun t ht => ?_
  have hmem : t ∈ tokens source := by
    rw [htokens]
    exact List.mem_append_left _ ht
  exact ⟨List.mem_map_of_mem hmem, tokens_spelled source t hmem⟩

/-! ## Places of resolver errors -/

/-- The place of an error. -/
def ResolveError.place (e : ResolveError) : Ident := ⟨e.lexeme, e.line⟩

namespace ResolveStep

/-- The place at which a step may report an error. -/
def place? : ResolveStep → Option Ident
  | .declare name => some name
  | .read name => some name
  | .report line lexeme _ => some ⟨lexeme, line⟩
  | _ => none

/-- The places at which steps may report errors. -/
def blamed (steps : List ResolveStep) : List Ident := steps.filterMap place?

@[simp] theorem blamed_nil : blamed [] = [] := rfl

@[simp] theorem blamed_append (as bs : List ResolveStep) : blamed (as ++ bs) = blamed as ++ blamed bs :=
  List.filterMap_append

@[simp] theorem blamed_cons (step : ResolveStep) (rest : List ResolveStep) :
    blamed (step :: rest) = step.place?.toList ++ blamed rest := by
  unfold blamed
  cases h : step.place? <;> simp [h]

@[simp] theorem blamed_introduce (name : Ident) : blamed (introduce name) = [name] := rfl

@[simp] theorem blamed_parameters (params : List Ident) : blamed (params.flatMap introduce) = params := by
  induction params with
  | nil => rfl
  | cons param params ih => rw [List.flatMap_cons, blamed_append, ih, blamed_introduce, List.singleton_append]

theorem blamed_checkReturn {S : List Ident} {line : Nat} (h : ⟨"return", line⟩ ∈ S) (site : Site) (hasValue : Bool) :
    blamed (checkReturn site line hasValue) ⊆ S := by
  unfold checkReturn
  split <;> split <;> simp [place?, h]

end ResolveStep

/-- A step reports at its place or not at all. -/
theorem Resolution.errors_apply (st : Resolution) (step : ResolveStep) :
    (st.apply step).errors = st.errors ∨
      ∃ e : ResolveError, step.place? = some e.place ∧ (st.apply step).errors = st.errors ++ [e] := by
  have hmark : ∀ (st : Resolution) name complete, (st.mark name complete).errors = st.errors := by
    intro st name complete
    unfold Resolution.mark
    split <;> rfl
  cases step with
  | enter | leave => exact .inl rfl
  | define name => exact .inl (hmark st name.name true)
  | refer id name =>
      left
      show (st.refer id name).errors = st.errors
      unfold Resolution.refer
      split <;> rfl
  | declare name =>
      unfold Resolution.apply Resolution.declare
      simp only [hmark]
      split
      · exact .inr ⟨_, rfl, rfl⟩
      · exact .inl rfl
  | read name =>
      unfold Resolution.apply
      simp only
      split
      · exact .inr ⟨_, rfl, rfl⟩
      · exact .inl rfl
  | report line lexeme fault => exact .inr ⟨⟨line, lexeme, fault⟩, rfl, rfl⟩

theorem Resolution.errors_walk {steps : List ResolveStep} {st : Resolution} {e : ResolveError}
    (h : e ∈ (st.walk steps).errors) : e ∈ st.errors ∨ e.place ∈ ResolveStep.blamed steps := by
  induction steps generalizing st with
  | nil => exact .inl h
  | cons step steps ih =>
      rw [ResolveStep.blamed_cons]
      rcases ih h with hbefore | hlater
      · rcases st.errors_apply step with herrors | ⟨new, hplace, herrors⟩
        · rw [herrors] at hbefore
          exact .inl hbefore
        · rw [herrors] at hbefore
          rcases List.mem_append.mp hbefore with hold | hnew
          · exact .inl hold
          · obtain rfl := List.mem_singleton.mp hnew
            simp [hplace]
      · exact .inr (List.mem_append_right _ hlater)

open ResolveStep

mutual
theorem Expr.blamed_steps {S : List Ident} (site : Site) : ∀ e : Expr, e.places ⊆ S → blamed (e.steps site) ⊆ S
  | .lit _, _ => by simp [Expr.steps]
  | .group inner, h => inner.blamed_steps site h
  | .unary _ operand, h => by
      simp only [Expr.places, List.cons_subset] at h
      exact operand.blamed_steps site h.2
  | .binary _ left right, h | .logical _ left right, h | .index left _ right, h => by
      simp only [Expr.places, List.cons_subset, List.append_subset] at h
      simp [Expr.steps, left.blamed_steps site h.2.1, right.blamed_steps site h.2.2]
  | .ternary a b c, h => by
      simp only [Expr.places, List.append_subset] at h
      simp [Expr.steps, a.blamed_steps site h.1.1, b.blamed_steps site h.1.2, c.blamed_steps site h.2]
  | .var _ _, h => by
      simpa [Expr.steps, Expr.places, place?] using h
  | .assign _ _ value, h => by
      simp only [Expr.places, List.cons_subset] at h
      simpa [Expr.steps, place?] using value.blamed_steps site h.2
  | .update _ _ _ operand, h => by
      simp only [Expr.places, List.cons_subset] at h
      simpa [Expr.steps, place?] using operand.blamed_steps site h.2.2
  | .this _ _, h => by
      unfold Expr.steps
      split
      · simp [place?]
      · simpa [Expr.places, place?] using h
  | .array items, h => Expr.blamed_stepsAll site items h
  | .call callee _ args, h => by
      simp only [Expr.places, List.cons_subset, List.append_subset] at h
      simp [Expr.steps, callee.blamed_steps site h.2.1, Expr.blamed_stepsAll site args h.2.2]
  | .get object _, h => by
      simp only [Expr.places, List.cons_subset] at h
      exact object.blamed_steps site h.2
  | .set object _ value, h => by
      simp only [Expr.places, List.cons_subset, List.append_subset] at h
      simp [Expr.steps, value.blamed_steps site h.2.2, object.blamed_steps site h.2.1]
theorem Expr.blamed_stepsAll {S : List Ident} (site : Site) :
    ∀ es : List Expr, Expr.placesAll es ⊆ S → blamed (Expr.stepsAll site es) ⊆ S
  | [], _ => by simp [Expr.stepsAll]
  | e :: es, h => by
      simp only [Expr.placesAll, List.append_subset] at h
      simp [Expr.stepsAll, e.blamed_steps site h.1, Expr.blamed_stepsAll site es h.2]
end

mutual
theorem Stmt.blamed_steps {S : List Ident} (site : Site) : ∀ s : Stmt, s.places ⊆ S → blamed (s.steps site) ⊆ S
  | .expr e, h | .print e, h => e.blamed_steps site h
  | .var _ none, h => by simpa [Stmt.steps, Stmt.places, Expr.placesOpt] using h
  | .var _ (some init), h => by
      simp only [Stmt.places, Expr.placesOpt, List.cons_subset] at h
      simp [Stmt.steps, place?, h.1, init.blamed_steps site h.2]
  | .block body, h => by simpa [Stmt.steps, place?] using Stmt.blamed_stepsAll site body h
  | .ifElse test whenTrue none, h => by
      simp only [Stmt.places, List.append_subset] at h
      simp [Stmt.steps, test.blamed_steps site h.1, whenTrue.blamed_steps site h.2]
  | .ifElse test whenTrue (some whenFalse), h => by
      simp only [Stmt.places, List.append_subset] at h
      simp [Stmt.steps, test.blamed_steps site h.1.1, whenTrue.blamed_steps site h.1.2,
        whenFalse.blamed_steps site h.2]
  | .whileLoop test body, h => by
      simp only [Stmt.places, List.append_subset] at h
      simp [Stmt.steps, test.blamed_steps site h.1, body.blamed_steps site h.2]
  | .function decl, h => by
      have hname : decl.name ∈ S := by
        cases decl
        exact (List.cons_subset.mp h).1
      simp [Stmt.steps, hname, decl.blamed_steps _ h]
  | .classDecl name methods, h => by
      simp only [Stmt.places, List.cons_subset] at h
      simp [Stmt.steps, place?, h.1, FunctionDecl.blamed_stepsAll methods h.2]
  | .ret line none, h => blamed_checkReturn (List.cons_subset.mp h).1 site false
  | .ret line (some value), h => by
      simp only [Stmt.places, Expr.placesOpt, List.cons_subset] at h
      simp [Stmt.steps, blamed_checkReturn h.1 site true, value.blamed_steps site h.2]
theorem Stmt.blamed_stepsAll {S : List Ident} (site : Site) :
    ∀ ss : List Stmt, Stmt.placesAll ss ⊆ S → blamed (Stmt.stepsAll site ss) ⊆ S
  | [], _ => by simp [Stmt.stepsAll]
  | s :: ss, h => by
      simp only [Stmt.placesAll, List.append_subset] at h
      simp [Stmt.stepsAll, s.blamed_steps site h.1, Stmt.blamed_stepsAll site ss h.2]
theorem FunctionDecl.blamed_steps {S : List Ident} (site : Site) :
    ∀ d : FunctionDecl, d.places ⊆ S → blamed (d.steps site) ⊆ S
  | .mk _ _ body, h => by
      simp only [FunctionDecl.places, List.cons_subset, List.append_subset] at h
      simp [FunctionDecl.steps, place?, h.2.1, Stmt.blamed_stepsAll site body h.2.2]
theorem FunctionDecl.blamed_stepsAll {S : List Ident} :
    ∀ ds : List FunctionDecl, FunctionDecl.placesAll ds ⊆ S → blamed (FunctionDecl.stepsAll ds) ⊆ S
  | [], _ => by simp [FunctionDecl.stepsAll]
  | d :: ds, h => by
      simp only [FunctionDecl.placesAll, List.append_subset] at h
      simp [FunctionDecl.stepsAll, d.blamed_steps _ h.1, FunctionDecl.blamed_stepsAll ds h.2]
end

/-- **The resolver reports errors at places of the program only.** -/
theorem resolve_places {table : DistanceTable} {p : Program} {e : ResolveError} (h : e ∈ (resolve table p).errors) :
    e.place ∈ Stmt.placesAll p := by
  rw [resolve_eq_walk] at h
  rcases Resolution.errors_walk h with hnone | hplace
  · cases hnone
  · exact Stmt.blamed_stepsAll _ p (List.Subset.refl _) hplace

end Scriptlet
