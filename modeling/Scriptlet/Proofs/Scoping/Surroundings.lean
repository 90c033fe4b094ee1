import Mathlib.Data.List.Forall2
import Mathlib.Tactic.Tauto
import Scriptlet.Proofs.Scoping.Declared

/-!
# Points of a program and what surrounds them

Where a name is declared is a matter of the text around it.  This module says so without the resolver.

* `Expr.Contains e node` — `node` is a node of the expression `e`, at any depth.
* `Enclosure` — a block, function, method or class body around a point, with the names it has declared there so far;
  `Surroundings` — all of them, the innermost first.
* `Stmt.At Γ s Δ c` — in a statement `s` that stands in the surroundings `Γ`, the construct `c` stands in the
  surroundings `Δ`.  The rules follow the path from `s` to `c`.
* `Program.At p Δ c` — the construct `c` of a program stands in the surroundings `Δ`.

Principal results: `Expr.Contains.splits`, `Stmt.At.splits`, `Program.At.splits` — the walk of the resolver comes to
every construct, and the scopes it is in are then the surroundings of the construct.
-/

set_option autoImplicit false

namespace Scriptlet

open ResolveStep Resolution

/-! ## Nodes of expressions -/

/-- The expressions that an expression is made of. -/
def Expr.parts : Expr → List Expr
  | .lit _ => []
  | .group inner => [inner]
  | .unary _ operand => [operand]
  | .binary _ left right => [left, right]
  | .logical _ left right => [left, right]
  | .ternary test whenTrue whenFalse => [test, whenTrue, whenFalse]
  | .var _ _ => []
  | .assign _ _ value => [value]
  | .update _ _ _ operand => [operand]
  | .this _ _ => []
  | .array items => items
  | .index target _ position => [target, position]
  | .call callee _ args => callee :: args
  | .get object _ => [object]
  | .set object _ value => [value, object]

/-- The nodes of an expression: itself and the nodes of its parts. -/
inductive Expr.Contains : Expr → Expr → Prop
  | self (e : Expr) : Contains e e
  | part {e part node : Expr} : part ∈ e.parts → Contains part node → Contains e node

theorem Expr.sizeOf_part_lt {e part : Expr} (h : part ∈ e.parts) : sizeOf part < sizeOf e := by
  cases e with
  | array items =>
      have : sizeOf part < sizeOf items := List.sizeOf_lt_of_mem h
      simp only [Expr.array.sizeOf_spec]
      omega
  | call callee line args =>
      rcases List.mem_cons.mp h with rfl | h
      · simp only [Expr.call.sizeOf_spec]
        omega
      · have := List.sizeOf_lt_of_mem h
        simp only [Expr.call.sizeOf_spec]
        omega
  | lit | var | this => cases h
  | group | unary | binary | logical | ternary | assign | update | index | get | set =>
      simp only [Expr.parts, List.mem_cons, List.not_mem_nil, or_false] at h
      rcases h with rfl | rfl | rfl <;> simp <;> omega

/-- What holds of an expression if it holds of its parts holds of every expression. -/
@[elab_as_elim]
theorem Expr.parts_induction {P : Expr → Prop} (step : ∀ e : Expr, (∀ part ∈ e.parts, P part) → P e) (e : Expr) :
    P e :=
  step e fun part _ => Expr.parts_induction step part
termination_by sizeOf e
decreasing_by exact Expr.sizeOf_part_lt ‹_›

/-- The reference that a node makes itself. -/
def Expr.reference? : Expr → Option Reference
  | .var id name => some ⟨id, name.name, .read⟩
  | .assign id name _ => some ⟨id, name.name, .write⟩
  | .update id name _ _ => some ⟨id, name.name, .update⟩
  | .this id _ => some ⟨id, thisName, .read⟩
  | _ => none

theorem Expr.referencesAll_eq_flatMap (es : List Expr) : Expr.referencesAll es = es.flatMap Expr.references := by
  induction es with
  | nil => rfl
  | cons e es ih => rw [Expr.referencesAll, ih, List.flatMap_cons]

theorem Expr.references_perm (e : Expr) :
    e.references.Perm (e.reference?.toList ++ e.parts.flatMap Expr.references) := by
  cases e <;>
    simp [Expr.references, Expr.reference?, Expr.parts, Expr.referencesAll_eq_flatMap, List.perm_append_comm]

/-- The steps of the resolver at a node, after those over its parts. -/
def Expr.ownSteps (site : Site) : Expr → List ResolveStep
  | .var id name => [.read name, .refer id name.name]
  | .assign id name _ => [.refer id name.name]
  | .update id name _ _ => [.refer id name.name]
  | .this id line =>
      if site.inClass then [.refer id thisName] else [.report line thisName .thisOutsideClass]
  | _ => []

theorem Expr.stepsAll_eq_flatMap (site : Site) (es : List Expr) :
    Expr.stepsAll site es = es.flatMap (Expr.steps site) := by
  induction es with
  | nil => rfl
  | cons e es ih => rw [Expr.stepsAll, ih, List.flatMap_cons]

theorem Expr.steps_eq (site : Site) (e : Expr) :
    e.steps site = e.parts.flatMap (Expr.steps site) ++ e.ownSteps site := by
  cases e <;> simp [Expr.steps, Expr.parts, Expr.ownSteps, Expr.stepsAll_eq_flatMap]

/-! ## Surroundings -/

/-- What a scope belongs to. -/
inductive EnclosureKind where
  | block
  | function
  | method (name : String)
  | classBody
  deriving DecidableEq, Repr

/-- A scope around a point of a program, with the names it has declared so far. -/
structure Enclosure where
  kind : EnclosureKind
  names : List String
  deriving DecidableEq, Repr

/-- The scopes around a point of a program, the innermost first.  The global scope is not one of them. -/
abbrev Surroundings := List Enclosure

/-- Further names are declared in the innermost scope; at top level they are global. -/
def Surroundings.declare (names : List String) : Surroundings → Surroundings
  | [] => []
  | enclosure :: outer => { enclosure with names := enclosure.names ++ names } :: outer

/-- The names that a statement declares in the scope around it. -/
def Stmt.names (s : Stmt) : List String := s.declared.map Prod.fst

/-- The names that statements declare in the scope around them. -/
def Stmt.namesAll (ss : List Stmt) : List String := (Stmt.declaredAll ss).map Prod.fst

/-- A statement or a node of an expression. -/
inductive Construct where
  | stmt (s : Stmt)
  | expr (e : Expr)

/-- The surroundings of the statements in a block. -/
def Surroundings.inBlock (Γ : Surroundings) : Surroundings := ⟨.block, []⟩ :: Γ

/-- The surroundings of the statements in a function. -/
def Surroundings.inFunction (Γ : Surroundings) (params : List Ident) : Surroundings :=
  ⟨.function, params.map Ident.name⟩ :: Γ

/-- The surroundings of the methods of a class. -/
def Surroundings.inClass (Γ : Surroundings) : Surroundings := ⟨.classBody, [thisName]⟩ :: Γ

/-- The surroundings of the statements in a method. -/
def Surroundings.inMethod (Γ : Surroundings) (name : Ident) (params : List Ident) : Surroundings :=
  ⟨.method name.name, params.map Ident.name⟩ :: Γ.inClass

/-- The path from a statement to a construct in it, with the surroundings of both.  A declaration counts from its
beginning: a variable in its initializer, a function or class in its body.  What stands before a statement in its block
or body has been declared, and so has what the first branch of an `if` declares in the second. -/
inductive Stmt.At : Surroundings → Stmt → Surroundings → Construct → Prop
  | self {Γ : Surroundings} {s : Stmt} : At Γ s Γ (.stmt s)
  | expr {Γ : Surroundings} {e node : Expr} : e.Contains node → At Γ (.expr e) Γ (.expr node)
  | print {Γ : Surroundings} {e node : Expr} : e.Contains node → At Γ (.print e) Γ (.expr node)
  | init {Γ : Surroundings} {name : Ident} {init node : Expr} : init.Contains node →
      At Γ (.var name (some init)) (Γ.declare [name.name]) (.expr node)
  | value {Γ : Surroundings} {line : Nat} {value node : Expr} : value.Contains node →
      At Γ (.ret line (some value)) Γ (.expr node)
  | ifTest {Γ : Surroundings} {test node : Expr} {whenTrue : Stmt} {whenFalse : Option Stmt} :
      test.Contains node → At Γ (.ifElse test whenTrue whenFalse) Γ (.expr node)
  | ifTrue {Γ Δ : Surroundings} {test : Expr} {whenTrue : Stmt} {whenFalse : Option Stmt} {c : Construct} :
      At Γ whenTrue Δ c → At Γ (.ifElse test whenTrue whenFalse) Δ c
  | ifFalse {Γ Δ : Surroundings} {test : Expr} {whenTrue whenFalse : Stmt} {c : Construct} :
      At (Γ.declare whenTrue.names) whenFalse Δ c → At Γ (.ifElse test whenTrue (some whenFalse)) Δ c
  | whileTest {Γ : Surroundings} {test node : Expr} {body : Stmt} :
      test.Contains node → At Γ (.whileLoop test body) Γ (.expr node)
  | whileBody {Γ Δ : Surroundings} {test : Expr} {body : Stmt} {c : Construct} :
      At Γ body Δ c → At Γ (.whileLoop test body) Δ c
  | block {Γ Δ : Surroundings} {before after : List Stmt} {s : Stmt} {c : Construct} :
      At (Γ.inBlock.declare (Stmt.namesAll before)) s Δ c → At Γ (.block (before ++ s :: after)) Δ c
  | function {Γ Δ : Surroundings} {name : Ident} {params : List Ident} {before after : List Stmt} {s : Stmt}
      {c : Construct} :
      At (((Γ.declare [name.name]).inFunction params).declare (Stmt.namesAll before)) s Δ c →
      At Γ (.function (.mk name params (before ++ s :: after))) Δ c
  | method {Γ Δ : Surroundings} {cls name : Ident} {methods : List FunctionDecl} {params : List Ident}
      {before after : List Stmt} {s : Stmt} {c : Construct} :
      .mk name params (before ++ s :: after) ∈ methods →
      At (((Γ.declare [cls.name]).inMethod name params).declare (Stmt.namesAll before)) s Δ c →
      At Γ (.classDecl cls methods) Δ c

/-- The paths into statements that follow one another. -/
def Stmt.AtAll (Γ : Surroundings) (ss : List Stmt) (Δ : Surroundings) (c : Construct) : Prop :=
  ∃ before s after, ss = before ++ s :: after ∧ Stmt.At (Γ.declare (Stmt.namesAll before)) s Δ c

/-- A construct of a program and its surroundings. -/
def Program.At (p : Program) (Δ : Surroundings) (c : Construct) : Prop := Stmt.AtAll [] p Δ c

namespace Surroundings

variable {Γ : Surroundings}

@[simp] theorem declare_nil (Γ : Surroundings) : Γ.declare [] = Γ := by
  cases Γ <;> simp [declare]

theorem declare_append (Γ : Surroundings) (names names' : List String) :
    Γ.declare (names ++ names') = (Γ.declare names).declare names' := by
  cases Γ <;> simp [declare]

/-- The kind of the nearest function or method around a point. -/
def functionKind : Surroundings → FunctionKind
  | [] => .none
  | ⟨.function, _⟩ :: _ => .function
  | ⟨.method name, _⟩ :: _ => .ofMethod name
  | ⟨.block, _⟩ :: outer => functionKind outer
  | ⟨.classBody, _⟩ :: outer => functionKind outer

/-- The site that the resolver has for a point. -/
def site (Γ : Surroundings) : Site := ⟨Γ.functionKind, Γ.any (·.kind = .classBody)⟩

@[simp] theorem site_declare (Γ : Surroundings) (names : List String) : (Γ.declare names).site = Γ.site := by
  cases Γ with
  | nil => rfl
  | cons enclosure outer =>
      obtain ⟨kind, known⟩ := enclosure
      cases kind <;> rfl

@[simp] theorem site_inFunction (Γ : Surroundings) (params : List Ident) :
    (Γ.inFunction params).site = ⟨.function, Γ.site.inClass⟩ := rfl

@[simp] theorem site_inMethod (Γ : Surroundings) (name : Ident) (params : List Ident) :
    (Γ.inMethod name params).site = ⟨.ofMethod name.name, true⟩ := rfl

/-- The scopes of the resolver declare what the surroundings say. -/
def Describes (Γ : Surroundings) (scopes : ScopeStack) : Prop :=
  List.Forall₂ (fun enclosure scope => ∀ name, NameScope.declares scope name = true ↔ name ∈ enclosure.names) Γ scopes

variable {scopes : ScopeStack}

theorem Describes.mark (h : Γ.Describes scopes) (name : String) (complete : Bool) :
    (Γ.declare [name]).Describes (scopes.mark name complete) := by
  cases h with
  | nil => exact .nil
  | cons hscope houter =>
      refine .cons (fun key => ?_) houter
      rw [declares_cons, hscope, List.mem_append, List.mem_singleton, or_comm]

theorem Describes.introduce (h : Γ.Describes scopes) (name : Ident) :
    (Γ.declare [name.name]).Describes (scopes.introduce name) := by
  cases h with
  | nil => exact .nil
  | cons hscope houter =>
      refine .cons (fun key => ?_) houter
      rw [declares_cons, declares_cons, hscope, List.mem_append, List.mem_singleton, ← or_assoc, or_self, or_comm]

theorem Describes.scopesAfter (h : Γ.Describes scopes) (s : Stmt) :
    (Γ.declare s.names).Describes (s.scopesAfter scopes) := by
  fun_induction Stmt.scopesAfter s scopes generalizing Γ with
  | case1 name _ _ | case2 decl _ | case3 name _ _ => exact h.introduce _
  | case4 _ _ _ ih | case6 _ _ _ ih => exact ih h
  | case5 _ whenTrue whenFalse _ ih₁ ih₂ =>
      have h₂ := ih₂ (ih₁ h)
      rwa [← declare_append, Stmt.names, Stmt.names, ← List.map_append] at h₂
  | case7 s _ hvar hfunction hclass hif hifElse hwhile =>
      have hnames : s.names = [] := by
        unfold Stmt.names Stmt.declared
        split
        · exact absurd rfl (hvar _ _)
        · exact absurd rfl (hfunction _)
        · exact absurd rfl (hclass _ _)
        · exact absurd rfl (hif _ _)
        · exact absurd rfl (hifElse _ _ _)
        · exact absurd rfl (hwhile _ _)
        · rfl
      rwa [hnames, declare_nil]

theorem Describes.scopesAfterAll (h : Γ.Describes scopes) (ss : List Stmt) :
    (Γ.declare (Stmt.namesAll ss)).Describes (Stmt.scopesAfterAll ss scopes) := by
  induction ss generalizing Γ scopes with
  | nil => exact (Γ.declare_nil).symm ▸ h
  | cons s ss ih =>
      have hs := ih (h.scopesAfter s)
      rwa [← declare_append, Stmt.names, Stmt.namesAll, ← List.map_append] at hs

theorem Describes.enterBlock (h : Γ.Describes scopes) : Γ.inBlock.Describes ([] :: scopes) :=
  .cons (by simp [NameScope.declares]) h

theorem Describes.enterClass (h : Γ.Describes scopes) : Γ.inClass.Describes ([(thisName, true)] :: scopes) :=
  .cons (fun name => by rw [declares_cons]; simp [NameScope.declares]) h

theorem Describes.parameters (h : Γ.Describes scopes) (kind : EnclosureKind) (params : List Ident) :
    Describes (⟨kind, params.map Ident.name⟩ :: Γ) (parameterScope params :: scopes) := by
  refine .cons (fun name => ?_) h
  have hfold : ∀ scope : NameScope, NameScope.declares (params.foldl (fun scope param =>
      (param.name, true) :: (param.name, false) :: scope) scope) name = true ↔
        name ∈ params.map Ident.name ∨ scope.declares name = true := by
    induction params with
    | nil => simp
    | cons param params ih =>
        intro scope
        rw [List.foldl_cons, ih, declares_cons, declares_cons, List.map_cons, List.mem_cons]
        tauto
  have hnone : ¬ NameScope.declares [] name = true := nofun
  rw [parameterScope, hfold, or_iff_left hnone]

/-- From scopes that `Γ` describes to scopes that `Δ` describes. -/
def Leads (Γ Δ : Surroundings) (S S' : ScopeStack) : Prop := Γ.Describes S → Δ.Describes S'

end Surroundings

/-! ## The walk of the resolver comes to every construct -/

/-- The steps over a tree come to those over a part of it.  What is before and after refers to other nodes of the tree,
and `R` relates the scopes with which the walk comes to the tree and to the part. -/
def Splits (as : List ResolveStep) (refs : List Reference) (bs : List ResolveStep) (refs' : List Reference)
    (R : ScopeStack → ScopeStack → Prop) : Prop :=
  ∃ before after, as = before ++ (bs ++ after) ∧ (∀ st : Resolution, R st.scopes (st.walk before).scopes) ∧
    ∀ id, (referred before).count id + (referred after).count id + (Reference.ids refs').count id ≤
      (Reference.ids refs).count id

section Splits

variable {as bs cs : List ResolveStep} {refs refs' refs'' : List Reference} {R R' R'' : ScopeStack → ScopeStack → Prop}

theorem Splits.refl (h : ∀ scopes, R scopes scopes) : Splits as refs as refs R :=
  ⟨[], [], by simp, fun st => h st.scopes, fun id => by simp [referred]⟩

theorem Splits.trans (h : Splits as refs bs refs' R) (h' : Splits bs refs' cs refs'' R')
    (hR : ∀ {S S' S''}, R S S' → R' S' S'' → R'' S S'') : Splits as refs cs refs'' R'' := by
  obtain ⟨before, after, rfl, hscopes, hcount⟩ := h
  obtain ⟨before', after', rfl, hscopes', hcount'⟩ := h'
  refine ⟨before ++ before', after' ++ after, by simp, fun st => ?_, fun id => ?_⟩
  · rw [walk_append]
    exact hR (hscopes st) (hscopes' _)
  · have := hcount id
    have := hcount' id
    simp only [referred_append, List.count_append]
    omega

theorem Splits.leads {Γ Δ : Surroundings} {f : ScopeStack → ScopeStack}
    (h : Splits as refs bs refs' fun S S' => S' = f S) (hf : ∀ S, Γ.Describes S → Δ.Describes (f S)) :
    Splits as refs bs refs' (Γ.Leads Δ) := by
  obtain ⟨before, after, hsplit, hscopes, hcount⟩ := h
  exact ⟨before, after, hsplit, fun st hΓ => hscopes st ▸ hf _ hΓ, hcount⟩

theorem Splits.andThen {Γ Γ' Δ : Surroundings} (h : Splits as refs bs refs' (Γ.Leads Γ'))
    (h' : Splits bs refs' cs refs'' (Γ'.Leads Δ)) : Splits as refs cs refs'' (Γ.Leads Δ) :=
  h.trans h' fun hS hS' hΓ => hS' (hS hΓ)

end Splits

/-- The walk over an expression leaves the scopes as they are. -/
theorem Expr.walk_scopes (site : Site) (e : Expr) (st : Resolution) : (st.walk (e.steps site)).scopes = st.scopes := by
  rw [← e.resolve_eq_walk]
  exact (e.resolve_walks site st).scopes

theorem Expr.walk_scopesAll (site : Site) (es : List Expr) (st : Resolution) :
    (st.walk (es.flatMap (Expr.steps site))).scopes = st.scopes := by
  rw [← Expr.stepsAll_eq_flatMap, ← Expr.resolveAll_eq_walk]
  exact (Expr.resolveAll_walks site es st).scopes

theorem Expr.count_referred_flatMap_le (site : Site) (id : NodeId) (es : List Expr) :
    (referred (es.flatMap (Expr.steps site))).count id ≤ (Reference.ids (es.flatMap Expr.references)).count id := by
  rw [← Expr.stepsAll_eq_flatMap, ← Expr.referencesAll_eq_flatMap]
  exact Expr.count_referredAll_le site id es

theorem Expr.count_referred_ownSteps_le (site : Site) (id : NodeId) (e : Expr) :
    (referred (e.ownSteps site)).count id ≤ (Reference.ids e.reference?.toList).count id := by
  cases e with
  | this id' line =>
      rw [Expr.ownSteps]
      split
      · exact Nat.le_refl _
      · exact Nat.zero_le _
  | _ => exact Nat.le_refl _

/-- **The walk over an expression comes to every node of it.** -/
theorem Expr.Contains.splits (site : Site) {e node : Expr} (h : e.Contains node) :
    Splits (e.steps site) e.references (node.steps site) node.references fun S S' => S' = S := by
  induction h with
  | self e => exact .refl fun _ => rfl
  | @part e part node hpart _ ih =>
      obtain ⟨earlier, later, hparts⟩ := List.append_of_mem hpart
      have hsplit : Splits (e.steps site) e.references (part.steps site) part.references fun S S' => S' = S := by
        refine ⟨earlier.flatMap (Expr.steps site), later.flatMap (Expr.steps site) ++ e.ownSteps site, ?_,
          Expr.walk_scopesAll site earlier, fun id => ?_⟩
        · rw [e.steps_eq, hparts]
          simp
        · have hrefs : (Reference.ids e.references).count id =
              (Reference.ids (e.reference?.toList ++ e.parts.flatMap Expr.references)).count id :=
            (e.references_perm.map _).count_eq id
          have hearlier := Expr.count_referred_flatMap_le site id earlier
          have hlater := Expr.count_referred_flatMap_le site id later
          have hown := e.count_referred_ownSteps_le site id
          rw [hparts] at hrefs
          simp only [List.flatMap_append, List.flatMap_cons, Reference.ids_append, List.count_append] at hrefs
          simp only [referred_append, List.count_append]
          omega
      exact hsplit.trans ih fun h h' => h'.trans h

/-- The steps over a construct. -/
def Construct.steps (site : Site) : Construct → List ResolveStep
  | .stmt s => s.steps site
  | .expr e => e.steps site

/-- The references of a construct. -/
def Construct.references : Construct → List Reference
  | .stmt s => s.references
  | .expr e => e.references

theorem Stmt.walk_scopes (site : Site) (s : Stmt) (st : Resolution) :
    (st.walk (s.steps site)).scopes = s.scopesAfter st.scopes := by
  rw [← s.resolve_eq_walk]
  exact (s.resolve_walks site st).scopes

theorem Stmt.walk_scopesAll (site : Site) (ss : List Stmt) (st : Resolution) :
    (st.walk (Stmt.stepsAll site ss)).scopes = Stmt.scopesAfterAll ss st.scopes := by
  rw [← Stmt.resolveAll_eq_walk]
  exact (Stmt.resolveAll_walks site ss st).scopes

theorem FunctionDecl.walk_scopesAll (methods : List FunctionDecl) (st : Resolution) :
    (st.walk (FunctionDecl.stepsAll methods)).scopes = st.scopes := by
  rw [← FunctionDecl.resolveMethods_eq_walk]
  exact (FunctionDecl.resolveMethods_walks methods st).scopes

@[simp] theorem Stmt.stepsAll_append (site : Site) (as bs : List Stmt) :
    Stmt.stepsAll site (as ++ bs) = Stmt.stepsAll site as ++ Stmt.stepsAll site bs := by
  induction as with
  | nil => rfl
  | cons s as ih => simp [Stmt.stepsAll, ih]

@[simp] theorem FunctionDecl.stepsAll_append (as bs : List FunctionDecl) :
    FunctionDecl.stepsAll (as ++ bs) = FunctionDecl.stepsAll as ++ FunctionDecl.stepsAll bs := by
  induction as with
  | nil => rfl
  | cons d as ih => simp [FunctionDecl.stepsAll, ih]

@[simp] theorem FunctionDecl.referencesAll_append (as bs : List FunctionDecl) :
    FunctionDecl.referencesAll (as ++ bs) = FunctionDecl.referencesAll as ++ FunctionDecl.referencesAll bs := by
  induction as with
  | nil => rfl
  | cons d as ih => simp [FunctionDecl.referencesAll, ih]

section Paths

variable {Γ Δ : Surroundings} {c : Construct}

/-- The walk over statements comes to each of them, with the names of those before it declared. -/
theorem Stmt.splits_statement (before after : List Stmt) (s : Stmt) :
    Splits (Stmt.stepsAll Γ.site (before ++ s :: after)) (Stmt.referencesAll (before ++ s :: after))
      (s.steps (Γ.declare (Stmt.namesAll before)).site) s.references
      (Γ.Leads (Γ.declare (Stmt.namesAll before))) := by
  refine ⟨Stmt.stepsAll Γ.site before, Stmt.stepsAll Γ.site after, ?_, fun st h => ?_, fun id => ?_⟩
  · simp [Stmt.stepsAll]
  · rw [Stmt.walk_scopesAll]
    exact h.scopesAfterAll before
  · have hbefore := Stmt.count_referredAll_le Γ.site id before
    have hafter := Stmt.count_referredAll_le Γ.site id after
    simp only [Stmt.referencesAll_append, Stmt.referencesAll, Reference.ids_append, List.count_append]
    omega

/-- The walk over a function comes to its body, in a scope with its parameters. -/
theorem FunctionDecl.splits_body (site : Site) (name : Ident) (params : List Ident) (body : List Stmt) :
    Splits (FunctionDecl.steps site (.mk name params body)) (FunctionDecl.references (.mk name params body))
      (Stmt.stepsAll site body) (Stmt.referencesAll body) fun S S' => S' = parameterScope params :: S := by
  refine ⟨.enter [] :: params.flatMap introduce, [.leave], by simp [FunctionDecl.steps], fun st => ?_, fun id => ?_⟩
  · rw [walk_cons, walk_parameters]
    exact (Scriptlet.walks_parameters params (st.enter []) [] st.scopes rfl).scopes
  · simp [referred, FunctionDecl.references]

/-- The walk over the methods of a class comes to each of them. -/
theorem FunctionDecl.splits_method {methods : List FunctionDecl} {m : FunctionDecl} (h : m ∈ methods) :
    Splits (FunctionDecl.stepsAll methods) (FunctionDecl.referencesAll methods)
      (m.steps ⟨.ofMethod m.name.name, true⟩) m.references fun S S' => S' = S := by
  obtain ⟨earlier, later, rfl⟩ := List.append_of_mem h
  refine ⟨FunctionDecl.stepsAll earlier, FunctionDecl.stepsAll later, ?_, FunctionDecl.walk_scopesAll earlier,
    fun id => ?_⟩
  · simp [FunctionDecl.stepsAll]
  · have hearlier := FunctionDecl.count_referredAll_le id earlier
    have hlater := FunctionDecl.count_referredAll_le id later
    simp only [FunctionDecl.referencesAll_append, FunctionDecl.referencesAll, Reference.ids_append, List.count_append]
    omega

theorem Stmt.splits_init (site : Site) (name : Ident) (init : Expr) :
    Splits (Stmt.steps site (.var name (some init))) (Stmt.references (.var name (some init)))
      (init.steps site) init.references fun S S' => S' = S.mark name.name false :=
  ⟨[.declare name], [.define name], rfl, fun st => (walks_declare st name).scopes,
    fun id => by simp [referred, Stmt.references, Expr.referencesOpt]⟩

theorem Stmt.splits_value (site : Site) (line : Nat) (value : Expr) :
    Splits (Stmt.steps site (.ret line (some value))) (Stmt.references (.ret line (some value)))
      (value.steps site) value.references fun S S' => S' = S := by
  refine ⟨checkReturn site line true, [], by simp [Stmt.steps], fun st => ?_, fun id => ?_⟩
  · rw [walk_checkReturn]
    exact (walks_checkReturn site line true st).scopes
  · simp [referred, Stmt.references, Expr.referencesOpt]

theorem Stmt.splits_ifTest (site : Site) (test : Expr) (whenTrue : Stmt) (whenFalse : Option Stmt) :
    Splits (Stmt.steps site (.ifElse test whenTrue whenFalse)) (Stmt.references (.ifElse test whenTrue whenFalse))
      (test.steps site) test.references fun S S' => S' = S := by
  cases whenFalse with
  | none =>
      refine ⟨[], whenTrue.steps site, rfl, fun st => rfl, fun id => ?_⟩
      have htrue := whenTrue.count_referred_le site id
      simp only [Stmt.references, Reference.ids_append, List.count_append, referred, List.count_nil]
      omega
  | some whenFalse =>
      refine ⟨[], whenTrue.steps site ++ whenFalse.steps site, by simp [Stmt.steps], fun st => rfl, fun id => ?_⟩
      have htrue := whenTrue.count_referred_le site id
      have hfalse := whenFalse.count_referred_le site id
      simp only [Stmt.references, Reference.ids_append, referred_append, List.count_append, referred, List.count_nil]
      omega

theorem Stmt.splits_ifTrue (site : Site) (test : Expr) (whenTrue : Stmt) (whenFalse : Option Stmt) :
    Splits (Stmt.steps site (.ifElse test whenTrue whenFalse)) (Stmt.references (.ifElse test whenTrue whenFalse))
      (whenTrue.steps site) whenTrue.references fun S S' => S' = S := by
  cases whenFalse with
  | none =>
      refine ⟨test.steps site, [], by simp [Stmt.steps], test.walk_scopes site, fun id => ?_⟩
      have htest := test.count_referred_le site id
      simp only [Stmt.references, Reference.ids_append, List.count_append, referred, List.count_nil]
      omega
  | some whenFalse =>
      refine ⟨test.steps site, whenFalse.steps site, by simp [Stmt.steps], test.walk_scopes site, fun id => ?_⟩
      have htest := test.count_referred_le site id
      have hfalse := whenFalse.count_referred_le site id
      simp only [Stmt.references, Reference.ids_append, List.count_append]
      omega

theorem Stmt.splits_ifFalse (site : Site) (test : Expr) (whenTrue whenFalse : Stmt) :
    Splits (Stmt.steps site (.ifElse test whenTrue (some whenFalse)))
      (Stmt.references (.ifElse test whenTrue (some whenFalse))) (whenFalse.steps site) whenFalse.references
      fun S S' => S' = whenTrue.scopesAfter S := by
  refine ⟨test.steps site ++ whenTrue.steps site, [], by simp [Stmt.steps], fun st => ?_, fun id => ?_⟩
  · rw [walk_append, whenTrue.walk_scopes, test.walk_scopes]
  · have htest := test.count_referred_le site id
    have htrue := whenTrue.count_referred_le site id
    simp only [Stmt.references, Reference.ids_append, referred_append, List.count_append, referred, List.count_nil]
    omega

theorem Stmt.splits_whileTest (site : Site) (test : Expr) (body : Stmt) :
    Splits (Stmt.steps site (.whileLoop test body)) (Stmt.references (.whileLoop test body))
      (test.steps site) test.references fun S S' => S' = S := by
  refine ⟨[], body.steps site, rfl, fun st => rfl, fun id => ?_⟩
  have hbody := body.count_referred_le site id
  simp only [Stmt.references, Reference.ids_append, List.count_append, referred, List.count_nil]
  omega

theorem Stmt.splits_whileBody (site : Site) (test : Expr) (body : Stmt) :
    Splits (Stmt.steps site (.whileLoop test body)) (Stmt.references (.whileLoop test body))
      (body.steps site) body.references fun S S' => S' = S := by
  refine ⟨test.steps site, [], by simp [Stmt.steps], test.walk_scopes site, fun id => ?_⟩
  have htest := test.count_referred_le site id
  simp only [Stmt.references, Reference.ids_append, List.count_append, referred, List.count_nil]
  omega

theorem Stmt.splits_block (site : Site) (body : List Stmt) :
    Splits (Stmt.steps site (.block body)) (Stmt.references (.block body)) (Stmt.stepsAll site body)
      (Stmt.referencesAll body) fun S S' => S' = [] :: S :=
  ⟨[.enter []], [.leave], rfl, fun st => rfl, fun id => by simp [referred, Stmt.references]⟩

theorem Stmt.splits_function (site : Site) (decl : FunctionDecl) :
    Splits (Stmt.steps site (.function decl)) (Stmt.references (.function decl))
      (decl.steps ⟨.function, site.inClass⟩) decl.references fun S S' => S' = S.introduce decl.name :=
  ⟨introduce decl.name, [], by simp [Stmt.steps], fun st => (walks_introduce st decl.name).scopes,
    fun id => by simp [referred, Stmt.references]⟩

theorem Stmt.splits_methods (site : Site) (name : Ident) (methods : List FunctionDecl) :
    Splits (Stmt.steps site (.classDecl name methods)) (Stmt.references (.classDecl name methods))
      (FunctionDecl.stepsAll methods) (FunctionDecl.referencesAll methods)
      fun S S' => S' = [(thisName, true)] :: S.introduce name := by
  refine ⟨introduce name ++ [.enter [(thisName, true)]], [.leave], by simp [Stmt.steps], fun st => ?_, fun id => ?_⟩
  · rw [walk_append, walk_introduce]
    exact congrArg _ (walks_introduce st name).scopes
  · simp [referred, Stmt.references]

/-- **The walk over a statement comes to every construct in it, with the scopes that its surroundings describe.** -/
theorem Stmt.At.splits {s : Stmt} (h : Stmt.At Γ s Δ c) :
    Splits (s.steps Γ.site) s.references (c.steps Δ.site) c.references (Γ.Leads Δ) := by
  induction h with
  | self => exact .refl fun _ => id
  | expr h | print h => exact (h.splits _).leads fun _ => id
  | @init Γ name init _ h =>
      rw [Surroundings.site_declare]
      have hinit := (Stmt.splits_init Γ.site name init).leads fun _ (hΓ : Γ.Describes _) => hΓ.mark name.name false
      exact hinit.andThen ((h.splits _).leads fun _ => id)
  | value h => exact ((Stmt.splits_value _ _ _).leads fun _ => id).andThen ((h.splits _).leads fun _ => id)
  | ifTest h => exact ((Stmt.splits_ifTest _ _ _ _).leads fun _ => id).andThen ((h.splits _).leads fun _ => id)
  | ifTrue _ ih => exact ((Stmt.splits_ifTrue _ _ _ _).leads fun _ => id).andThen ih
  | @ifFalse Γ _ test whenTrue whenFalse _ _ ih =>
      rw [Surroundings.site_declare] at ih
      have hfalse := (Stmt.splits_ifFalse Γ.site test whenTrue whenFalse).leads
        fun _ (hΓ : Γ.Describes _) => hΓ.scopesAfter whenTrue
      exact hfalse.andThen ih
  | whileTest h => exact ((Stmt.splits_whileTest _ _ _).leads fun _ => id).andThen ((h.splits _).leads fun _ => id)
  | whileBody _ ih => exact ((Stmt.splits_whileBody _ _ _).leads fun _ => id).andThen ih
  | @block Γ _ before after s _ _ ih =>
      have hbody := (Stmt.splits_block Γ.site (before ++ s :: after)).leads
        fun _ (hΓ : Γ.Describes _) => hΓ.enterBlock
      exact hbody.andThen ((Stmt.splits_statement before after s).andThen ih)
  | @function Γ _ name params before after s _ _ ih =>
      have hdecl := (Stmt.splits_function Γ.site (.mk name params (before ++ s :: after))).leads
        fun _ (hΓ : Γ.Describes _) => hΓ.introduce name
      have hbody := (FunctionDecl.splits_body ⟨.function, Γ.site.inClass⟩ name params (before ++ s :: after)).leads
        fun _ (hΓ : (Γ.declare [name.name]).Describes _) => hΓ.parameters .function params
      have hsite : (⟨.function, Γ.site.inClass⟩ : Site) = ((Γ.declare [name.name]).inFunction params).site := by simp
      rw [hsite] at hdecl hbody
      exact hdecl.andThen (hbody.andThen ((Stmt.splits_statement before after s).andThen ih))
  | @method Γ _ cls name methods params before after s _ hmem _ ih =>
      have hmethods := (Stmt.splits_methods Γ.site cls methods).leads
        fun _ (hΓ : Γ.Describes _) => (hΓ.introduce cls).enterClass
      have hbody := (FunctionDecl.splits_body ⟨.ofMethod name.name, true⟩ name params (before ++ s :: after)).leads
        fun _ (hΓ : (Γ.declare [cls.name]).inClass.Describes _) => hΓ.parameters (.method name.name) params
      rw [← Surroundings.site_inMethod (Γ.declare [cls.name]) name params] at hbody
      exact hmethods.andThen (((FunctionDecl.splits_method hmem).leads fun _ => id).andThen
        (hbody.andThen ((Stmt.splits_statement before after s).andThen ih)))

/-- **The walk over a program comes to every construct in it, with the scopes that its surroundings describe.** -/
theorem Program.At.splits {p : Program} (h : p.At Δ c) :
    Splits p.steps (Stmt.referencesAll p) (c.steps Δ.site) c.references (Surroundings.Leads [] Δ) := by
  obtain ⟨before, s, after, rfl, hs⟩ := h
  exact (Stmt.splits_statement (Γ := []) before after s).andThen hs.splits

end Paths

end Scriptlet
