import Scriptlet.Proofs.Scoping.Guards
import Scriptlet.Proofs.Scoping.Steps

/-!
# The names that a scope declares

* `Stmt.declared` — the names that a statement declares in the scope around it, and for each whether it names a
  variable.  Branches and loop bodies that are not blocks declare in the same scope.
* `FunctionDecl.declared` — the names in the scope of a function: its parameters and the names of its body.

Principal results: `Stmt.declaredAll_distinct`, `FunctionDecl.declared_distinct` — in a scope that resolves without
error no name is declared twice; `parse_named` — no name of a parsed program is spelled `this`.
-/

set_option autoImplicit false

namespace Scriptlet

/-- The names that a statement declares in the scope around it; the mark tells variables from functions and
classes. -/
def Stmt.declared : Stmt → List (String × Bool)
  | .var name _ => [(name.name, true)]
  | .function decl => [(decl.name.name, false)]
  | .classDecl name _ => [(name.name, false)]
  | .ifElse _ whenTrue none => whenTrue.declared
  | .ifElse _ whenTrue (some whenFalse) => whenTrue.declared ++ whenFalse.declared
  | .whileLoop _ body => body.declared
  | _ => []

/-- The names that statements declare. -/
def Stmt.declaredAll (ss : List Stmt) : List (String × Bool) := ss.flatMap Stmt.declared

/-- The names in the scope of a function. -/
def FunctionDecl.declared : FunctionDecl → List (String × Bool)
  | .mk _ params body => params.map (fun param => (param.name, true)) ++ Stmt.declaredAll body

/-! ## Names are declared once -/

/-- Between two states of a walk the names are declared in the innermost scope, each for the first time if there is no
error. -/
structure Resolution.Adds (names : List String) (st st' : Resolution) : Prop where
  errors : st'.errors = [] → st.errors = []
  scopes : ∀ {scope : NameScope} {Γ : ScopeStack}, st.scopes = scope :: Γ → ∃ scope', st'.scopes = scope' :: Γ ∧
    (∀ name, scope'.declares name = true ↔ name ∈ names ∨ scope.declares name = true) ∧
    (st'.errors = [] → names.Nodup ∧ ∀ name ∈ names, ¬ scope.declares name = true)

namespace Resolution

variable {names names' : List String} {st st₁ st₂ : Resolution}

theorem Adds.trans (h : Adds names st st₁) (h' : Adds names' st₁ st₂) : Adds (names ++ names') st st₂ := by
  refine ⟨fun he => h.errors (h'.errors he), fun hst => ?_⟩
  obtain ⟨scope₁, hst₁, hdeclares₁, hfresh₁⟩ := h.scopes hst
  obtain ⟨scope₂, hst₂, hdeclares₂, hfresh₂⟩ := h'.scopes hst₁
  refine ⟨scope₂, hst₂, fun name => ?_, fun he => ?_⟩
  · rw [hdeclares₂, hdeclares₁, List.mem_append, ← or_assoc, or_comm (a := name ∈ names')]
  · obtain ⟨hnodup₁, hnew₁⟩ := hfresh₁ (h'.errors he)
    obtain ⟨hnodup₂, hnew₂⟩ := hfresh₂ he
    have happart : ∀ name ∈ names, name ∉ names' := fun name hname hname' =>
      hnew₂ name hname' ((hdeclares₁ name).mpr (.inl hname))
    refine ⟨List.nodup_append.mpr ⟨hnodup₁, hnodup₂, ?_⟩, fun name hname => ?_⟩
    · intro a ha b hb hab
      exact happart a ha (hab ▸ hb)
    · rcases List.mem_append.mp hname with hname | hname
      · exact hnew₁ name hname
      · exact fun hold => hnew₂ name hname ((hdeclares₁ name).mpr (.inr hold))

/-- A walk that leaves the scopes as they were declares nothing. -/
theorem Walks.adds {ids : List NodeId} (h : Walks ids st.scopes st st₁) : Adds [] st st₁ := by
  refine ⟨h.errors, fun {scope Γ} hst => ⟨scope, h.scopes.trans hst, fun name => ?_, fun _ => ?_⟩⟩
  · simp
  · exact ⟨List.nodup_nil, nofun⟩

theorem declares_cons (name key : String) (complete : Bool) (scope : NameScope) :
    NameScope.declares ((key, complete) :: scope) name = true ↔ name = key ∨ scope.declares name = true := by
  unfold NameScope.declares
  rw [List.lookup_cons]
  by_cases h : name = key
  · simp [h]
  · simp [h, beq_false_of_ne h]

theorem adds_declare (st : Resolution) (name : Ident) : Adds [name.name] st (st.declare name) := by
  refine ⟨(walks_declare st name).errors, fun {scope Γ} hst => ?_⟩
  refine ⟨(name.name, false) :: scope, ?_, fun key => ?_, fun he => ?_⟩
  · rw [(walks_declare st name).scopes, hst]
    rfl
  · rw [declares_cons, List.mem_singleton]
  · refine ⟨by simp, fun key hkey htaken => ?_⟩
    rw [List.mem_singleton.mp hkey] at htaken
    -- A name that is taken would have been reported.
    have hany : st.scopes.head?.any (·.declares name.name) = true := by
      rw [hst]
      exact htaken
    unfold declare at he
    simp only [hany, if_true] at he
    have hreport := (walks_mark (st.report name.line name.name .redeclared) name.name false).errors he
    simp [report] at hreport

/-- Completing a declaration declares nothing else. -/
theorem Adds.define {name : Ident} (h : Adds names st st₁) (hname : name.name ∈ names) :
    Adds names st (st₁.define name) := by
  have hmark := walks_mark st₁ name.name true
  refine ⟨fun he => h.errors (hmark.errors he), fun hst => ?_⟩
  obtain ⟨scope₁, hst₁, hdeclares, hfresh⟩ := h.scopes hst
  refine ⟨(name.name, true) :: scope₁, ?_, fun key => ?_, fun he => hfresh (hmark.errors he)⟩
  · exact hmark.scopes.trans (by rw [hst₁]; rfl)
  · rw [declares_cons, hdeclares]
    constructor
    · rintro (rfl | h)
      · exact .inl hname
      · exact h
    · exact .inr

theorem adds_introduce (st : Resolution) (name : Ident) : Adds [name.name] st (st.introduce name) :=
  (adds_declare st name).define List.mem_cons_self

theorem adds_parameters (params : List Ident) (st : Resolution) :
    Adds (params.map Ident.name) st (params.foldl Resolution.introduce st) := by
  induction params generalizing st with
  | nil => exact (walks_refl st).adds
  | cons param params ih => exact (adds_introduce st param).trans (ih _)

end Resolution

open Resolution

/-- **What a statement declares.** -/
theorem Stmt.resolve_adds (site : Site) : ∀ (s : Stmt) (st : Resolution),
    Adds (s.declared.map Prod.fst) st (s.resolve site st)
  | .expr e, st => (e.resolve_walks site st).adds
  | .print e, st => (e.resolve_walks site st).adds
  | .var name none, st => adds_introduce st name
  | .var name (some init), st => by
      have hdeclare := (adds_declare st name).trans (init.resolve_walks site _).adds
      exact hdeclare.define List.mem_cons_self
  | .block body, st => ((Stmt.block body).resolve_walks site st).adds
  | .ifElse test whenTrue none, st => (test.resolve_walks site st).adds.trans (whenTrue.resolve_adds site _)
  | .ifElse test whenTrue (some whenFalse), st => by
      have htest := (test.resolve_walks site st).adds
      have htrue := whenTrue.resolve_adds site (test.resolve site st)
      have hfalse := whenFalse.resolve_adds site (whenTrue.resolve site (test.resolve site st))
      rw [Stmt.declared, List.map_append]
      exact htest.trans (htrue.trans hfalse)
  | .whileLoop test body, st => (test.resolve_walks site st).adds.trans (body.resolve_adds site _)
  | .function decl, st => (adds_introduce st decl.name).trans (decl.resolve_walks _ _).adds
  | .classDecl name methods, st => by
      have henter := walks_enter (st.introduce name) [(thisName, true)]
      have hmethods := FunctionDecl.resolveMethods_walks methods ((st.introduce name).enter [(thisName, true)])
      have hleave := walks_leave
        (FunctionDecl.resolveMethods methods ((st.introduce name).enter [(thisName, true)]))
      rw [hmethods.scopes, henter.scopes] at hleave
      exact (adds_introduce st name).trans ((henter.trans hmethods).trans hleave).adds
  | .ret line value, st => ((Stmt.ret line value).resolve_walks site st).adds

theorem Stmt.resolveAll_adds (site : Site) (ss : List Stmt) (st : Resolution) :
    Adds ((Stmt.declaredAll ss).map Prod.fst) st (Stmt.resolveAll site ss st) := by
  induction ss generalizing st with
  | nil => exact (walks_refl st).adds
  | cons s ss ih =>
      rw [Stmt.declaredAll, List.flatMap_cons, List.map_append]
      exact (s.resolve_adds site st).trans (ih _)

/-- **No name is declared twice in a block.** -/
theorem Stmt.declaredAll_distinct {site : Site} {ss : List Stmt} {st : Resolution}
    (h : (Stmt.resolveAll site ss (st.enter [])).errors = []) : ((Stmt.declaredAll ss).map Prod.fst).Nodup := by
  obtain ⟨-, -, -, hfresh⟩ := (Stmt.resolveAll_adds site ss (st.enter [])).scopes rfl
  exact (hfresh h).1

/-- **No name is declared twice in the scope of a function.** -/
theorem FunctionDecl.declared_distinct {site : Site} {d : FunctionDecl} {st : Resolution}
    (h : (d.resolve site st).errors = []) : (d.declared.map Prod.fst).Nodup := by
  obtain ⟨name, params, body⟩ := d
  have hadds := (adds_parameters params (st.enter [])).trans (Stmt.resolveAll_adds site body _)
  obtain ⟨-, -, -, hfresh⟩ := hadds.scopes rfl
  have hnodup := (hfresh h).1
  rw [FunctionDecl.declared, List.map_append, List.map_map]
  exact hnodup

/-- A name that is declared once is not the name of both a variable and a function or class. -/
theorem not_mem_declared {declared : List (String × Bool)} (h : (declared.map Prod.fst).Nodup) {name : String}
    (hvariable : (name, true) ∈ declared) : (name, false) ∉ declared := by
  induction declared with
  | nil => cases hvariable
  | cons entry declared ih =>
      rw [List.map_cons, List.nodup_cons] at h
      intro hcallable
      rcases List.mem_cons.mp hvariable with rfl | hvariable
      · rcases List.mem_cons.mp hcallable with heq | hcallable
        · cases heq
        · exact h.1 (List.mem_map.mpr ⟨_, hcallable, rfl⟩)
      · rcases List.mem_cons.mp hcallable with heq | hcallable
        · rw [← heq] at h
          exact h.1 (List.mem_map.mpr ⟨_, hvariable, rfl⟩)
        · exact ih h.2 hvariable hcallable

/-! ## Names that are not `this` -/

/-- No declaration in a walk is of a name spelled `this`. -/
def ResolveStep.Named (steps : List ResolveStep) : Prop :=
  ∀ name, ResolveStep.declare name ∈ steps → name.name ≠ thisName

namespace ResolveStep

variable {as bs : List ResolveStep} {name : Ident}

@[simp] theorem named_nil : Named [] := nofun

@[simp] theorem named_append : Named (as ++ bs) ↔ Named as ∧ Named bs := by
  unfold Named
  constructor
  · exact fun h => ⟨fun name hname => h name (List.mem_append_left _ hname),
      fun name hname => h name (List.mem_append_right _ hname)⟩
  · rintro ⟨ha, hb⟩ name hname
    exact (List.mem_append.mp hname).elim (ha name) (hb name)

@[simp] theorem named_declare : Named (.declare name :: as) ↔ name.name ≠ thisName ∧ Named as := by
  unfold Named
  constructor
  · exact fun h => ⟨h name List.mem_cons_self, fun name hname => h name (List.mem_cons_of_mem _ hname)⟩
  · rintro ⟨hname, has⟩ key hkey
    rcases List.mem_cons.mp hkey with heq | hkey
    · cases heq
      exact hname
    · exact has key hkey

theorem named_cons {step : ResolveStep} (hstep : ∀ name, step ≠ .declare name) :
    Named (step :: as) ↔ Named as := by
  unfold Named
  constructor
  · exact fun h name hname => h name (List.mem_cons_of_mem _ hname)
  · intro has key hkey
    rcases List.mem_cons.mp hkey with heq | hkey
    · exact absurd heq.symm (hstep key)
    · exact has key hkey

@[simp] theorem named_enter {scope : NameScope} : Named (.enter scope :: as) ↔ Named as := named_cons nofun

@[simp] theorem named_leave : Named (.leave :: as) ↔ Named as := named_cons nofun

@[simp] theorem named_define : Named (.define name :: as) ↔ Named as := named_cons nofun

@[simp] theorem named_read : Named (.read name :: as) ↔ Named as := named_cons nofun

@[simp] theorem named_refer {id : NodeId} {name : String} : Named (.refer id name :: as) ↔ Named as :=
  named_cons nofun

@[simp] theorem named_report {line : Nat} {lexeme : String} {fault : StaticFault} :
    Named (.report line lexeme fault :: as) ↔ Named as :=
  named_cons nofun

@[simp] theorem named_introduce : Named (introduce name) ↔ name.name ≠ thisName := by
  simp [introduce]

@[simp] theorem named_parameters (params : List Ident) :
    Named (params.flatMap introduce) ↔ ∀ param ∈ params, param.name ≠ thisName := by
  induction params with
  | nil => simp
  | cons param params ih => simp [ih]

@[simp] theorem named_checkReturn (site : Site) (line : Nat) (hasValue : Bool) :
    Named (checkReturn site line hasValue) := by
  unfold checkReturn
  split <;> split <;> simp

end ResolveStep

open ResolveStep

mutual
/-- Expressions declare nothing. -/
@[simp] theorem Expr.named_steps (site : Site) : ∀ e : Expr, Named (e.steps site)
  | .lit _ => by simp [Expr.steps]
  | .group inner => by simpa [Expr.steps] using inner.named_steps site
  | .unary _ operand => by simpa [Expr.steps] using operand.named_steps site
  | .binary _ left right => by simp [Expr.steps, left.named_steps site, right.named_steps site]
  | .logical _ left right => by simp [Expr.steps, left.named_steps site, right.named_steps site]
  | .ternary a b c => by simp [Expr.steps, a.named_steps site, b.named_steps site, c.named_steps site]
  | .var _ _ => by simp [Expr.steps]
  | .assign _ _ value => by simp [Expr.steps, value.named_steps site]
  | .update _ _ _ operand => by simp [Expr.steps, operand.named_steps site]
  | .this _ _ => by
      unfold Expr.steps
      split <;> simp
  | .array items => by simpa [Expr.steps] using Expr.named_stepsAll site items
  | .index target _ position => by simp [Expr.steps, target.named_steps site, position.named_steps site]
  | .call callee _ args => by simp [Expr.steps, callee.named_steps site, Expr.named_stepsAll site args]
  | .get object _ => by simpa [Expr.steps] using object.named_steps site
  | .set object _ value => by simp [Expr.steps, value.named_steps site, object.named_steps site]
theorem Expr.named_stepsAll (site : Site) : ∀ es : List Expr, Named (Expr.stepsAll site es)
  | [] => by simp [Expr.stepsAll]
  | e :: es => by simp [Expr.stepsAll, e.named_steps site, Expr.named_stepsAll site es]
end

namespace Grammar

/-- The declarations of a tree are of names that are not spelled `this`. -/
def NamedTree : (s : StmtSymbol) → s.Tree → Prop
  | .declarations, ss => ∀ site, Named (Stmt.stepsAll site ss)
  | .declaration _, s => ∀ site, Named (s.steps site)
  | .statement _, s => ∀ site, Named (s.steps site)
  | .callable, d => d.name.name ≠ thisName ∧ ∀ site, Named (d.steps site)
  | .callables, ds => Named (FunctionDecl.stepsAll ds)

theorem Variable.named {ts : List Token} {s : Stmt} (h : Variable ts s) (hts : ∀ t ∈ ts, t.Plain)
    (site : Site) : Named (s.steps site) := by
  cases h with
  | bare hname _ =>
      have := (hts _ (by simp)).notThis hname
      simpa [Stmt.steps, Token.ident] using this
  | init hname _ _ _ =>
      have := (hts _ (by simp)).notThis hname
      simpa [Stmt.steps, Token.ident] using this

theorem ForInit.named {ts : List Token} {o : Option Stmt} (h : ForInit ts o) (hts : ∀ t ∈ ts, t.Plain) :
    ∀ s, o = some s → ∀ site, Named (s.steps site) := by
  cases h with
  | none _ => simp
  | var _ h =>
      rintro s ⟨⟩
      exact h.named fun t ht => hts t (by simp [ht])
  | expr _ _ =>
      rintro s ⟨⟩ site
      simp [Stmt.steps]

theorem Names.named {ts : List Token} {names : List Ident} (h : Names ts names) (hts : ∀ t ∈ ts, t.Plain) :
    ∀ name ∈ names, name.name ≠ thisName := by
  induction h with
  | one hname =>
      intro name hmem
      rw [List.mem_singleton.mp hmem]
      exact (hts _ (by simp)).notThis hname
  | more hname _ _ ih =>
      intro name hmem
      rcases List.mem_cons.mp hmem with rfl | hmem
      · exact (hts _ (by simp)).notThis hname
      · exact ih (fun t ht => hts t (by simp [ht])) name hmem

theorem Parameters.named {ts : List Token} {names : List Ident} (h : Parameters ts names)
    (hts : ∀ t ∈ ts, t.Plain) : ∀ name ∈ names, name.name ≠ thisName := by
  cases h with
  | none => exact nofun
  | some h _ => exact h.named hts

theorem forLoop_named {init : Option Stmt} {test step : Option Expr} {body : Stmt}
    (hinit : ∀ s, init = some s → ∀ site, Named (s.steps site)) (hbody : ∀ site, Named (body.steps site))
    (site : Site) : Named ((Stmt.forLoop init test step body).steps site) := by
  cases init <;> cases step <;>
    simp_all [Stmt.forLoop, Stmt.steps, Stmt.stepsAll]

theorem DerivesStmt.named {nearest : Bool} {s : StmtSymbol} {ts : List Token} {t : s.Tree}
    (h : DerivesStmt nearest s ts t) (hts : ∀ t ∈ ts, t.Plain) : NamedTree s t := by
  induction h with
  | noDeclaration => exact fun _ => named_nil
  | noCallable => exact named_nil
  | declarations _ _ ih ihs =>
      have := ih fun t ht => hts t (by simp [ht])
      have := ihs fun t ht => hts t (by simp [ht])
      simp_all [NamedTree, Stmt.stepsAll]
  | «variable» _ h => exact h.named fun t ht => hts t (by simp [ht])
  | statement _ ih => exact ih hts
  | classDecl _ hname _ _ _ ih =>
      have := (hts _ (by simp)).notThis hname
      have := ih fun t ht => hts t (by simp [ht])
      simp_all [NamedTree, Stmt.steps, Token.ident]
  | function _ _ ih =>
      have := ih fun t ht => hts t (by simp [ht])
      simp_all [NamedTree, Stmt.steps]
  | @ret _ _ _ value _ _ _ => cases value <;> simp [NamedTree, Stmt.steps]
  | print | expr => simp [NamedTree, Stmt.steps]
  | ifThen _ _ _ _ _ ih =>
      have := ih fun t ht => hts t (by simp [ht])
      simp_all [NamedTree, Stmt.steps]
  | ifElse _ _ _ _ _ _ _ _ ih ih' =>
      have := ih fun t ht => hts t (by simp [ht])
      have := ih' fun t ht => hts t (by simp [ht])
      simp_all [NamedTree, Stmt.steps]
  | forLoop _ _ hi _ _ _ _ _ ih =>
      have := ih fun t ht => hts t (by simp [ht])
      exact forLoop_named (hi.named fun t ht => hts t (by simp [ht])) this
  | whileLoop _ _ _ _ _ ih =>
      have := ih fun t ht => hts t (by simp [ht])
      simp_all [NamedTree, Stmt.steps]
  | block _ _ _ ih =>
      have := ih fun t ht => hts t (by simp [ht])
      simp_all [NamedTree, Stmt.steps]
  | callable hname _ hparams _ _ _ _ ih =>
      have hbody := ih fun t ht => hts t (by simp [ht])
      have hnames := hparams.named fun t ht => hts t (by simp [ht])
      refine ⟨(hts _ (by simp)).notThis hname, fun site => ?_⟩
      simpa [FunctionDecl.steps] using ⟨hnames, hbody site⟩
  | callables _ _ ih ihs =>
      have := ih fun t ht => hts t (by simp [ht])
      have := ihs fun t ht => hts t (by simp [ht])
      simp_all [NamedTree, FunctionDecl.stepsAll]

end Grammar

/-- **The programs of scanned sources declare no name spelled `this`.** -/
theorem parse_named {firstId : NodeId} {source : String} {p : Program}
    (h : (parse firstId (tokens source)).program = .ok p) : Named p.steps := by
  obtain ⟨ts, line, htokens, hplain⟩ := tokens_spec source
  rw [htokens] at h
  have hp := Grammar.program_sound (fun t ht => (hplain t ht).notEnd) rfl h
  exact hp.named hplain _

end Scriptlet
