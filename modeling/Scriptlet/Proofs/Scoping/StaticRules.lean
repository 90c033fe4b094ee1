import Scriptlet.Proofs.Alike.Resolve
import Scriptlet.Proofs.Scoping.Addressing
import Scriptlet.Proofs.Scoping.Filed

/-!
# The static rules

What a program must keep to before it is run, said of its text alone.

* `Surroundings.callable? Δ` — the nearest function or method around a point.
* `StaticRules occurs` — the static rules, for the constructs that occur in a tree with their surroundings.
* `Fits Γ st` — the resolver has come without an error to a point with the surroundings `Γ`.

Principal results: `Program.keepsRules` — what is resolved without an error keeps to the rules;
`Stmt.resolve_errors` — what keeps to the rules is resolved without an error; `rejects_exactly` — the resolver rejects
exactly the programs that break a rule, and addresses all references even then.
-/

set_option autoImplicit false

namespace Scriptlet

open ResolveStep Resolution

/-- Functions and methods, which a `return` leaves. -/
def EnclosureKind.isCallable : EnclosureKind → Bool
  | .function => true
  | .method _ => true
  | .block => false
  | .classBody => false

/-- The nearest function or method around a point. -/
def Surroundings.callable? (Δ : Surroundings) : Option EnclosureKind :=
  (Δ.map Enclosure.kind).find? EnclosureKind.isCallable

/-- The static rules, for the constructs that occur with their surroundings. -/
structure StaticRules (occurs : Surroundings → Construct → Prop) : Prop where
  /-- A `return` stands in a function or method. -/
  returns : ∀ {Δ line value}, occurs Δ (.stmt (.ret line value)) → Δ.callable? ≠ none
  /-- A constructor returns no value. -/
  constructors : ∀ {Δ line value}, occurs Δ (.stmt (.ret line (some value))) →
    Δ.callable? ≠ some (.method constructorName)
  /-- A `this` stands in a class. -/
  this : ∀ {Δ id line}, occurs Δ (.expr (.this id line)) → Δ.InClass
  /-- A block declares no name twice. -/
  blocks : ∀ {Δ body}, occurs Δ (.stmt (.block body)) → (Stmt.namesAll body).Nodup
  /-- A function declares no name twice, parameters included. -/
  functions : ∀ {Δ name params body}, occurs Δ (.stmt (.function (.mk name params body))) →
    (params.map Ident.name ++ Stmt.namesAll body).Nodup
  /-- A method declares no name twice, parameters included. -/
  methods : ∀ {Δ cls ms name params body}, occurs Δ (.stmt (.classDecl cls ms)) → .mk name params body ∈ ms →
    (params.map Ident.name ++ Stmt.namesAll body).Nodup
  /-- The initializer of a local variable does not read the variable. -/
  initializers : ∀ {Δ name init id read}, occurs Δ (.stmt (.var name (some init))) → Δ ≠ [] →
    init.Contains (.var id read) → read.name ≠ name.name

/-- Where less occurs, the rules are kept as well. -/
theorem StaticRules.mono {occurs occurs' : Surroundings → Construct → Prop} (h : StaticRules occurs)
    (hsub : ∀ {Δ c}, occurs' Δ c → occurs Δ c) : StaticRules occurs' where
  returns hc := h.returns (hsub hc)
  constructors hc := h.constructors (hsub hc)
  this hc := h.this (hsub hc)
  blocks hc := h.blocks (hsub hc)
  functions hc := h.functions (hsub hc)
  methods hc := h.methods (hsub hc)
  initializers hc := h.initializers (hsub hc)

theorem Surroundings.inClass_declare {Γ : Surroundings} {names : List String} :
    (Γ.declare names).InClass ↔ Γ.InClass := by
  rw [← Surroundings.inClass_site, Surroundings.site_declare, Surroundings.inClass_site]

theorem Surroundings.functionKind_eq_none {Γ : Surroundings} : Γ.functionKind = .none ↔ Γ.callable? = none := by
  fun_induction Surroundings.functionKind Γ with
  | case1 => exact iff_of_true rfl rfl
  | case2 => exact iff_of_false nofun nofun
  | case3 name =>
      refine iff_of_false ?_ nofun
      unfold FunctionKind.ofMethod
      split <;> nofun
  | case4 _ _ ih | case5 _ _ ih => exact ih

theorem Surroundings.functionKind_eq_initializer {Γ : Surroundings} :
    Γ.functionKind = .initializer ↔ Γ.callable? = some (.method constructorName) := by
  fun_induction Surroundings.functionKind Γ with
  | case1 => exact iff_of_false nofun nofun
  | case2 => exact iff_of_false nofun nofun
  | case3 name =>
      simp [FunctionKind.ofMethod, Surroundings.callable?, EnclosureKind.isCallable]
  | case4 _ _ ih | case5 _ _ ih => exact ih

/-! ## What is resolved without an error keeps to the rules -/

theorem Resolution.errors_report (st : Resolution) (line : Nat) (lexeme : String) (fault : StaticFault) :
    (st.report line lexeme fault).errors ≠ [] := by
  simp [report]

/-- A walk without an error comes without an error to each of its parts. -/
theorem Splits.errors {as bs : List ResolveStep} {refs refs' : List Reference} {R : ScopeStack → ScopeStack → Prop}
    (h : Splits as refs bs refs' R) {st : Resolution} (he : (st.walk as).errors = []) :
    ∃ st' : Resolution, R st.scopes st'.scopes ∧ (st'.walk bs).errors = [] := by
  obtain ⟨before, after, rfl, hscopes, -⟩ := h
  rw [walk_append, walk_append] at he
  exact ⟨st.walk before, hscopes st, errors_of_walk _ _ he⟩

theorem Program.At.errors {p : Program} {table : DistanceTable} {Δ : Surroundings} {c : Construct} (h : p.At Δ c)
    (he : (resolve table p).errors = []) :
    ∃ st : Resolution, Δ.Describes st.scopes ∧ (st.walk (c.steps Δ.site)).errors = [] := by
  rw [resolve_eq_walk] at he
  obtain ⟨st, hleads, herrors⟩ := h.splits.errors he
  exact ⟨st, hleads .nil, herrors⟩

theorem Resolution.function_of_checkReturn {st : Resolution} {site : Site} {line : Nat} {hasValue : Bool}
    (h : (st.walk (ResolveStep.checkReturn site line hasValue)).errors = []) :
    site.function ≠ .none ∧ (hasValue = true → site.function ≠ .initializer) := by
  unfold ResolveStep.checkReturn at h
  rw [walk_append] at h
  constructor
  · intro hnone
    have hfirst := errors_of_walk _ _ h
    rw [if_pos hnone] at hfirst
    exact errors_report _ _ _ _ hfirst
  · intro hvalue hinitializer
    have hboth : hasValue = true ∧ site.function = .initializer := ⟨hvalue, hinitializer⟩
    rw [if_pos hboth] at h
    exact errors_report _ _ _ _ h

theorem FunctionDecl.map_declared (name : Ident) (params : List Ident) (body : List Stmt) :
    (FunctionDecl.declared (.mk name params body)).map Prod.fst = params.map Ident.name ++ Stmt.namesAll body := by
  rw [FunctionDecl.declared, List.map_append, List.map_map]
  rfl

/-- **What is resolved without an error keeps to the static rules.** -/
theorem Program.keepsRules {p : Program} {table : DistanceTable} (he : (resolve table p).errors = []) :
    StaticRules p.At where
  returns := by
    intro Δ line value h
    obtain ⟨st, -, herrors⟩ := h.errors he
    have hkind : Δ.site.function ≠ .none := by
      cases value with
      | none => exact (function_of_checkReturn herrors).1
      | some value =>
          rw [Construct.steps, Stmt.steps, walk_append] at herrors
          exact (function_of_checkReturn (errors_of_walk _ _ herrors)).1
    exact mt Surroundings.functionKind_eq_none.mpr hkind
  constructors := by
    intro Δ line value h
    obtain ⟨st, -, herrors⟩ := h.errors he
    rw [Construct.steps, Stmt.steps, walk_append] at herrors
    exact mt Surroundings.functionKind_eq_initializer.mpr
      ((function_of_checkReturn (errors_of_walk _ _ herrors)).2 rfl)
  this := by
    intro Δ id line h
    obtain ⟨st, -, herrors⟩ := h.errors he
    by_contra hclass
    rw [Construct.steps, Expr.steps, if_neg (mt Surroundings.inClass_site.mp hclass)] at herrors
    exact errors_report _ _ _ _ herrors
  blocks := by
    intro Δ body h
    obtain ⟨st, -, herrors⟩ := h.errors he
    rw [Construct.steps, ← Stmt.resolve_eq_walk] at herrors
    exact Stmt.declaredAll_distinct herrors
  functions := by
    intro Δ name params body h
    obtain ⟨st, -, herrors⟩ := h.errors he
    obtain ⟨st', -, herrors'⟩ := (Stmt.splits_function Δ.site (.mk name params body)).errors herrors
    rw [← FunctionDecl.resolve_eq_walk] at herrors'
    rw [← FunctionDecl.map_declared name]
    exact FunctionDecl.declared_distinct herrors'
  methods := by
    intro Δ cls ms name params body h hmem
    obtain ⟨st, -, herrors⟩ := h.errors he
    obtain ⟨st₁, -, herrors₁⟩ := (Stmt.splits_methods Δ.site cls ms).errors herrors
    obtain ⟨st₂, -, herrors₂⟩ := (FunctionDecl.splits_method hmem).errors herrors₁
    rw [← FunctionDecl.resolve_eq_walk] at herrors₂
    rw [← FunctionDecl.map_declared name]
    exact FunctionDecl.declared_distinct herrors₂
  initializers := by
    intro Δ name init id read h hlocal hread hname
    obtain ⟨st, hΔ, herrors⟩ := h.errors he
    obtain ⟨st₁, hscopes₁, herrors₁⟩ := (Stmt.splits_init Δ.site name init).errors herrors
    obtain ⟨st₂, hscopes₂, herrors₂⟩ := (hread.splits Δ.site).errors herrors₁
    -- The read would find the variable of the innermost scope incomplete.
    have hpending : st₂.isPending read.name = true := by
      unfold isPending
      rw [hscopes₂, hscopes₁, hname]
      generalize st.scopes = scopes at hΔ
      cases hΔ with
      | nil => exact absurd rfl hlocal
      | cons _ _ => simp [ScopeStack.mark]
    have hwalk : ((st₂.apply (.read read)).walk [.refer id read.name]).errors = [] := herrors₂
    have hreported := errors_of_walk _ _ hwalk
    simp only [apply, hpending, if_true] at hreported
    exact errors_report _ _ _ _ hreported

/-! ## What keeps to the rules is resolved without an error -/

theorem Stmt.namesAll_cons (s : Stmt) (ss : List Stmt) : Stmt.namesAll (s :: ss) = s.names ++ Stmt.namesAll ss := by
  rw [Stmt.namesAll, Stmt.declaredAll, List.flatMap_cons, List.map_append]
  rfl

/-- Further names may be declared in the innermost scope without declaring a name twice. -/
def Surroundings.Free (Γ : Surroundings) (names : List String) : Prop :=
  ∀ enclosure ∈ Γ.head?, (enclosure.names ++ names).Nodup

theorem Surroundings.Free.left {Γ : Surroundings} {names names' : List String} (h : Γ.Free (names ++ names')) :
    Γ.Free names := by
  intro enclosure henclosure
  have hnodup := h enclosure henclosure
  rw [← List.append_assoc] at hnodup
  exact (List.nodup_append.mp hnodup).1

theorem Surroundings.Free.right {Γ : Surroundings} {names names' : List String} (h : Γ.Free (names ++ names')) :
    (Γ.declare names).Free names' := by
  cases Γ with
  | nil => nofun
  | cons enclosure outer =>
      rintro _ ⟨⟩
      have hnodup := h enclosure rfl
      rwa [← List.append_assoc] at hnodup

theorem Surroundings.free_cons {kind : EnclosureKind} {known names : List String} {outer : Surroundings} :
    Surroundings.Free (⟨kind, known⟩ :: outer) names ↔ (known ++ names).Nodup := by
  simp [Surroundings.Free]

/-- The resolver has come without an error to a point with the given surroundings. -/
structure Fits (Γ : Surroundings) (st : Resolution) : Prop where
  describes : Γ.Describes st.scopes
  complete : Complete st.scopes
  errors : st.errors = []

section Fits

variable {Γ : Surroundings} {st : Resolution}

theorem Resolution.errors_mark (st : Resolution) (name : String) (complete : Bool) :
    (st.mark name complete).errors = st.errors := by
  unfold mark
  split <;> rfl

theorem Fits.declare_errors (h : Fits Γ st) {name : Ident} (hfree : Γ.Free [name.name]) :
    (st.declare name).errors = [] := by
  have htaken : st.scopes.head?.any (·.declares name.name) = false := by
    have hdescribes := h.describes
    generalize st.scopes = scopes at hdescribes
    cases hdescribes with
    | nil => rfl
    | @cons enclosure scope outer scopes hscope _ =>
        have hnew : name.name ∉ enclosure.names := fun hmem =>
          (List.nodup_append.mp (hfree enclosure rfl)).2.2 _ hmem _ List.mem_cons_self rfl
        simpa using mt (hscope name.name).mp hnew
  unfold Resolution.declare
  simp [htaken, errors_mark, h.errors]

theorem Fits.introduce (h : Fits Γ st) {name : Ident} (hfree : Γ.Free [name.name]) :
    Fits (Γ.declare [name.name]) (st.introduce name) := by
  have hscopes := (walks_introduce st name).scopes
  refine ⟨hscopes ▸ h.describes.introduce name, hscopes ▸ h.complete.introduce name, ?_⟩
  rw [Resolution.introduce, Resolution.define, errors_mark]
  exact h.declare_errors hfree

theorem Fits.enterBlock (h : Fits Γ st) : Fits Γ.inBlock (st.enter []) :=
  ⟨h.describes.enterBlock, h.complete.cons (by simp), h.errors⟩

theorem Fits.enterClass (h : Fits Γ st) : Fits Γ.inClass (st.enter [(thisName, true)]) := by
  refine ⟨h.describes.enterClass, h.complete.cons fun name => ?_, h.errors⟩
  rw [List.lookup_cons]
  split <;> simp

/-- A statement that is resolved without an error leads to the point after it. -/
theorem Fits.after (h : Fits Γ st) {s : Stmt} (he : (s.resolve Γ.site st).errors = []) :
    Fits (Γ.declare s.names) (s.resolve Γ.site st) := by
  have hscopes := (s.resolve_walks Γ.site st).scopes
  exact ⟨hscopes ▸ h.describes.scopesAfter s, hscopes ▸ h.complete.scopesAfter s, he⟩

/-- An expression that is resolved without an error leads to the same point. -/
theorem Fits.afterExpr (h : Fits Γ st) {e : Expr} (he : (e.resolve Γ.site st).errors = []) :
    Fits Γ (e.resolve Γ.site st) := by
  have hscopes := (e.resolve_walks Γ.site st).scopes
  exact ⟨hscopes ▸ h.describes, hscopes ▸ h.complete, he⟩

theorem Fits.parameters (h : Fits Γ st) (params : List Ident) (hfree : Γ.Free (params.map Ident.name)) :
    Fits (Γ.declare (params.map Ident.name)) (params.foldl Resolution.introduce st) := by
  induction params generalizing Γ st with
  | nil => rwa [List.map_nil, Surroundings.declare_nil]
  | cons param params ih =>
      rw [List.map_cons, ← List.singleton_append] at hfree ⊢
      rw [Surroundings.declare_append]
      exact ih (h.introduce hfree.left) hfree.right

/-- A function or method is entered with its parameters declared. -/
theorem Fits.enterFunction (h : Fits Γ st) (kind : EnclosureKind) {params : List Ident}
    (hnodup : (params.map Ident.name).Nodup) :
    Fits (⟨kind, params.map Ident.name⟩ :: Γ) (params.foldl Resolution.introduce (st.enter [])) := by
  have henter : Fits (⟨kind, []⟩ :: Γ) (st.enter []) :=
    ⟨.cons (by simp [NameScope.declares]) h.describes, h.complete.cons (by simp), h.errors⟩
  exact henter.parameters params (Surroundings.free_cons.mpr hnodup)

theorem Fits.checkReturn (h : Fits Γ st) (line : Nat) {hasValue : Bool} (hcallable : Γ.callable? ≠ none)
    (hvalue : hasValue = true → Γ.callable? ≠ some (.method constructorName)) :
    Fits Γ (st.checkReturn Γ.site line hasValue) := by
  have hinside : ¬ Γ.site.function = .none := mt Surroundings.functionKind_eq_none.mp hcallable
  have hplain : ¬ (hasValue = true ∧ Γ.site.function = .initializer) := fun hboth =>
    hvalue hboth.1 (Surroundings.functionKind_eq_initializer.mp hboth.2)
  rw [Resolution.checkReturn, if_neg hinside, if_neg hplain]
  exact h

end Fits

/-- From a state with the given scopes and no error, the steps report nothing. -/
def Quiet (scopes : ScopeStack) (steps : List ResolveStep) : Prop :=
  ∀ st : Resolution, st.scopes = scopes → st.errors = [] → (st.walk steps).errors = []

section Quiet

variable {site : Site} {scopes : ScopeStack}

theorem Expr.quiet_flatMap {es : List Expr} (h : ∀ e ∈ es, Quiet scopes (e.steps site)) :
    Quiet scopes (es.flatMap (Expr.steps site)) := by
  induction es with
  | nil => exact fun _ _ he => he
  | cons e es ih =>
      intro st hscopes he
      rw [List.flatMap_cons, walk_append]
      have herrors := h e List.mem_cons_self st hscopes he
      exact ih (fun e he => h e (List.mem_cons_of_mem _ he)) _ ((e.walk_scopes site st).trans hscopes) herrors

theorem Resolution.errors_refer (st : Resolution) (id : NodeId) (name : String) :
    (st.refer id name).errors = st.errors := by
  unfold refer
  split <;> rfl

theorem Expr.quiet_ownSteps {e : Expr} (hread : ∀ id read, e = .var id read → scopes.pending read.name = false)
    (hthis : ∀ id line, e = .this id line → site.inClass = true) : Quiet scopes (e.ownSteps site) := by
  intro st hscopes he
  cases e with
  | var id name =>
      have hpending : st.isPending name.name = false := by
        subst hscopes
        exact hread id name rfl
      rw [Expr.ownSteps, walk_cons, walk_cons, walk_nil, apply, hpending]
      exact (errors_refer _ _ _).trans he
  | this id line =>
      rw [Expr.ownSteps, if_pos (hthis id line rfl)]
      exact (errors_refer _ _ _).trans he
  | assign | update => exact (errors_refer _ _ _).trans he
  | _ => exact he

/-- An expression is resolved without an error if no variable that it reads is being declared and every `this` in it
stands in a class. -/
theorem Expr.quiet_steps (e : Expr) (hread : ∀ id read, e.Contains (.var id read) → scopes.pending read.name = false)
    (hthis : ∀ id line, e.Contains (.this id line) → site.inClass = true) : Quiet scopes (e.steps site) := by
  induction e using Expr.parts_induction with
  | step e ih =>
      intro st hscopes he
      have hparts : Quiet scopes (e.parts.flatMap (Expr.steps site)) :=
        Expr.quiet_flatMap fun part hpart => ih part hpart (fun id read h => hread id read (.part hpart h))
          (fun id line h => hthis id line (.part hpart h))
      have hown : Quiet scopes (e.ownSteps site) :=
        Expr.quiet_ownSteps (fun id read h => hread id read (h ▸ .self e)) (fun id line h => hthis id line (h ▸ .self e))
      rw [e.steps_eq, walk_append]
      exact hown _ ((Expr.walk_scopesAll site e.parts st).trans hscopes) (hparts st hscopes he)

end Quiet

theorem Complete.pending {scopes : ScopeStack} (h : Complete scopes) (name : String) : scopes.pending name = false := by
  cases scopes with
  | nil => rfl
  | cons scope scopes => simpa [ScopeStack.pending] using h scope List.mem_cons_self name

/-- Where no declaration is pending, an expression is resolved without an error if every `this` in it stands in a
class. -/
theorem Fits.expr {Γ : Surroundings} {st : Resolution} (h : Fits Γ st) {e : Expr}
    (hthis : ∀ id line, e.Contains (.this id line) → Γ.InClass) : Fits Γ (e.resolve Γ.site st) := by
  refine h.afterExpr ?_
  rw [e.resolve_eq_walk]
  exact e.quiet_steps (fun _ _ _ => h.complete.pending _) (fun id line hnode => Surroundings.inClass_site.mpr
    (hthis id line hnode)) st rfl h.errors

/-- The initializer of a variable that does not read it is resolved without an error. -/
theorem Fits.initializer_errors {Γ : Surroundings} {st : Resolution} (h : Fits Γ st) {name : Ident} {init : Expr}
    (hfree : Γ.Free [name.name]) (hthis : ∀ id line, init.Contains (.this id line) → Γ.InClass)
    (hread : ∀ id read, Γ ≠ [] → init.Contains (.var id read) → read.name ≠ name.name) :
    (init.resolve Γ.site (st.declare name)).errors = [] := by
  have hscopes := (walks_declare st name).scopes
  rw [init.resolve_eq_walk]
  refine init.quiet_steps (fun id read hnode => ?_) (fun id line hnode => Surroundings.inClass_site.mpr
    (hthis id line hnode)) (st.declare name) hscopes (h.declare_errors hfree)
  have hcomplete := h.complete
  have hdescribes := h.describes
  generalize st.scopes = scopes at hcomplete hdescribes
  cases hdescribes with
  | nil => rfl
  | @cons enclosure scope outer scopes _ _ =>
      have hne := hread id read (by simp) hnode
      have hold := hcomplete scope List.mem_cons_self read.name
      simp [ScopeStack.pending, ScopeStack.mark, List.lookup_cons, beq_false_of_ne hne, hold]

theorem StaticRules.head {Γ : Surroundings} {s : Stmt} {ss : List Stmt} (h : StaticRules (Stmt.AtAll Γ (s :: ss))) :
    StaticRules (Stmt.At Γ s) :=
  h.mono fun hc => ⟨[], s, ss, rfl, (Γ.declare_nil).symm ▸ hc⟩

theorem StaticRules.tail {Γ : Surroundings} {s : Stmt} {ss : List Stmt} (h : StaticRules (Stmt.AtAll Γ (s :: ss))) :
    StaticRules (Stmt.AtAll (Γ.declare s.names) ss) := by
  refine h.mono ?_
  rintro Δ c ⟨before, s', after, rfl, hc⟩
  refine ⟨s :: before, s', after, rfl, ?_⟩
  rwa [Stmt.namesAll_cons, Surroundings.declare_append]

/-- The paths into the methods of a class that is declared in the given surroundings. -/
def FunctionDecl.AtMethods (Γ : Surroundings) (methods : List FunctionDecl) (Δ : Surroundings) (c : Construct) : Prop :=
  ∃ name params body, .mk name params body ∈ methods ∧ Stmt.AtAll (Γ.inMethod name params) body Δ c

mutual
/-- **A statement that keeps to the static rules is resolved without an error.** -/
theorem Stmt.resolve_errors : ∀ (s : Stmt) {Γ : Surroundings} {st : Resolution}, Fits Γ st → Γ.Free s.names →
    StaticRules (Stmt.At Γ s) → (s.resolve Γ.site st).errors = []
  | .expr e, Γ, st, h, _, hrules => (h.expr fun _ _ hnode => hrules.this (.expr hnode)).errors
  | .print e, Γ, st, h, _, hrules => (h.expr fun _ _ hnode => hrules.this (.print hnode)).errors
  | .var name none, Γ, st, h, hfree, _ => (h.introduce hfree).errors
  | .var name (some init), Γ, st, h, hfree, hrules => by
      rw [Stmt.resolve, Resolution.define, errors_mark]
      exact h.initializer_errors hfree (fun _ _ hnode => Surroundings.inClass_declare.mp (hrules.this (.init hnode)))
        fun _ _ hlocal hnode => hrules.initializers .self hlocal hnode
  | .block body, Γ, st, h, _, hrules => by
      have hbody : StaticRules (Stmt.AtAll Γ.inBlock body) := by
        refine hrules.mono ?_
        rintro Δ c ⟨before, s, after, rfl, hc⟩
        exact .block hc
      have hfree : Γ.inBlock.Free (Stmt.namesAll body) := Surroundings.free_cons.mpr (hrules.blocks .self)
      have herrors := Stmt.resolveAll_errors body h.enterBlock hfree hbody
      exact herrors
  | .ifElse test whenTrue none, Γ, st, h, hfree, hrules => by
      have htest := h.expr (e := test) fun _ _ hnode => hrules.this (.ifTest hnode)
      exact whenTrue.resolve_errors htest hfree (hrules.mono .ifTrue)
  | .ifElse test whenTrue (some whenFalse), Γ, st, h, hfree, hrules => by
      have hnames : Stmt.names (.ifElse test whenTrue (some whenFalse)) = whenTrue.names ++ whenFalse.names := by
        simp [Stmt.names, Stmt.declared]
      rw [hnames] at hfree
      have htest := h.expr (e := test) fun _ _ hnode => hrules.this (.ifTest hnode)
      have htrue := htest.after (whenTrue.resolve_errors htest hfree.left (hrules.mono .ifTrue))
      have hfalse := whenFalse.resolve_errors htrue hfree.right (hrules.mono .ifFalse)
      rwa [Surroundings.site_declare] at hfalse
  | .whileLoop test body, Γ, st, h, hfree, hrules => by
      have htest := h.expr (e := test) fun _ _ hnode => hrules.this (.whileTest hnode)
      exact body.resolve_errors htest hfree (hrules.mono .whileBody)
  | .function (.mk name params body), Γ, st, h, hfree, hrules => by
      have hnames := hrules.functions .self
      have hbody : StaticRules (Stmt.AtAll ((Γ.declare [name.name]).inFunction params) body) := by
        refine hrules.mono ?_
        rintro Δ c ⟨before, s, after, rfl, hc⟩
        exact .function hc
      have henter := (h.introduce hfree).enterFunction .function (List.nodup_append.mp hnames).1
      have herrors := Stmt.resolveAll_errors body henter (Surroundings.free_cons.mpr hnames) hbody
      rwa [← Surroundings.inFunction, Surroundings.site_inFunction, Surroundings.site_declare] at herrors
  | .classDecl cls methods, Γ, st, h, hfree, hrules => by
      have hmethods : StaticRules (FunctionDecl.AtMethods (Γ.declare [cls.name]) methods) := by
        refine hrules.mono ?_
        rintro Δ c ⟨name, params, _, hmem, before, s, after, rfl, hc⟩
        exact .method hmem hc
      exact FunctionDecl.resolveMethods_errors methods (h.introduce hfree).enterClass
        (fun _ _ _ hmem => hrules.methods .self hmem) hmethods
  | .ret line none, Γ, st, h, _, hrules => by
      have hreturn : Fits Γ (st.checkReturn Γ.site line false) := h.checkReturn line (hrules.returns .self) nofun
      exact hreturn.errors
  | .ret line (some value), Γ, st, h, _, hrules => by
      have hreturn : Fits Γ (st.checkReturn Γ.site line true) :=
        h.checkReturn line (hrules.returns .self) fun _ => hrules.constructors .self
      exact (hreturn.expr fun _ _ hnode => hrules.this (.value hnode)).errors
theorem Stmt.resolveAll_errors : ∀ (ss : List Stmt) {Γ : Surroundings} {st : Resolution}, Fits Γ st →
    Γ.Free (Stmt.namesAll ss) → StaticRules (Stmt.AtAll Γ ss) → (Stmt.resolveAll Γ.site ss st).errors = []
  | [], _, _, h, _, _ => h.errors
  | s :: ss, Γ, st, h, hfree, hrules => by
      rw [Stmt.namesAll_cons] at hfree
      have hs := h.after (s.resolve_errors h hfree.left hrules.head)
      have hss := Stmt.resolveAll_errors ss hs hfree.right hrules.tail
      rwa [Surroundings.site_declare] at hss
theorem FunctionDecl.resolveMethods_errors : ∀ (methods : List FunctionDecl) {Γ : Surroundings} {st : Resolution},
    Fits Γ.inClass st →
    (∀ name params body, .mk name params body ∈ methods → (params.map Ident.name ++ Stmt.namesAll body).Nodup) →
    StaticRules (FunctionDecl.AtMethods Γ methods) → (FunctionDecl.resolveMethods methods st).errors = []
  | [], _, _, h, _, _ => h.errors
  | .mk name params body :: methods, Γ, st, h, hnames, hrules => by
      have hmethod : StaticRules (Stmt.AtAll (Γ.inMethod name params) body) :=
        hrules.mono fun hc => ⟨name, params, body, List.mem_cons_self, hc⟩
      have hlater : StaticRules (FunctionDecl.AtMethods Γ methods) := by
        refine hrules.mono ?_
        rintro Δ c ⟨name', params', body', hmem, hc⟩
        exact ⟨name', params', body', List.mem_cons_of_mem _ hmem, hc⟩
      have hnodup := hnames name params body List.mem_cons_self
      have henter := h.enterFunction (.method name.name) (List.nodup_append.mp hnodup).1
      have herrors := Stmt.resolveAll_errors body henter (Surroundings.free_cons.mpr hnodup) hmethod
      have hscopes := (FunctionDecl.resolve_walks ⟨.ofMethod name.name, true⟩ (.mk name params body) st).scopes
      exact FunctionDecl.resolveMethods_errors methods
        ⟨hscopes ▸ h.describes, hscopes ▸ h.complete, herrors⟩
        (fun _ _ _ hmem => hnames _ _ _ (List.mem_cons_of_mem _ hmem)) hlater
end

/-- A program that keeps to the static rules is resolved without an error. -/
theorem Program.resolve_errors {p : Program} (table : DistanceTable) (h : StaticRules p.At) :
    (resolve table p).errors = [] := by
  have hfits : Fits [] ⟨[], table, []⟩ := ⟨.nil, complete_nil, rfl⟩
  exact Stmt.resolveAll_errors p hfits nofun h

/-- **The resolver rejects exactly the programs that break a static rule, and files the lexical address of every
reference of a rejected program too.** -/
theorem rejects_exactly (table : DistanceTable) (p : Program) :
    ((resolve table p).errors = [] ↔ StaticRules p.At) ∧
      ((Reference.ids (Stmt.referencesAll p)).Nodup →
        (∀ id ∈ Reference.ids (Stmt.referencesAll p), table.distance? id = none) →
          p.Addressed table (resolve table p).table) := by
  refine ⟨⟨Program.keepsRules, Program.resolve_errors table⟩, fun hids hfree => ?_⟩
  exact ⟨fun hat href => hat.distance?_iff href hids hfree, fun _ => Program.exists_at_of_mem, fun _ => resolve_frame⟩

/-- A branch that is not a block declares a name of the block around it again; a read follows. -/
def branchRedeclares : Program :=
  [.block [.var ⟨"a", 1⟩ none, .ifElse (.lit (.bool true)) (.var ⟨"a", 2⟩ none) none, .print (.var 0 ⟨"a", 3⟩)]]

theorem rejects_exactly_branchRedeclares :
    (resolve .empty branchRedeclares).errors ≠ [] ∧ ¬ StaticRules branchRedeclares.At ∧
      (Reference.ids (Stmt.referencesAll branchRedeclares)).Nodup ∧
      (resolve .empty branchRedeclares).table.distance? 0 = some 0 := by
  obtain ⟨hrules, haddressed⟩ := rejects_exactly .empty branchRedeclares
  have hids : (Reference.ids (Stmt.referencesAll branchRedeclares)).Nodup := by decide
  have hbroken : ¬ StaticRules branchRedeclares.At := fun h =>
    absurd (h.blocks ⟨[], _, [], rfl, .self⟩) (by decide)
  have hat : Program.At branchRedeclares [⟨.block, ["a", "a"]⟩] (.expr (.var 0 ⟨"a", 3⟩)) :=
    ⟨[], _, [], rfl, @Stmt.At.block _ _ [_, _] _ _ _ (.print (.self _))⟩
  refine ⟨mt hrules.mp hbroken, hbroken, hids, ?_⟩
  have hentry := (haddressed hids fun id _ => DistanceTable.distance?_empty id).entry hat rfl 0
  exact hentry.mpr ⟨trivial, Surroundings.isNearest_zero.mpr (by decide)⟩

end Scriptlet
