import Scriptlet.Proofs.Alike.Trees
import Scriptlet.Proofs.Scoping.Steps

/-!
# Resolving programs that are alike

If the names of a program are told apart by all renamings in use, a program that is like it resolves to the same
distances, and has no errors if the first has none.

* `Variation.Separates V N` — renamings in use send different names of `N` to different names.
* `ResolveStep.Alike V Φ step step' Φ'` — corresponding steps of the two walks; `Φ` and `Φ'` are the renamings of the
  scopes before and after.
* `Resolution.Alike V N Φ st st'` — corresponding states of the two walks.

Principal results: `Resolution.Alike.apply` — a step leads from corresponding states to corresponding states;
`Resolution.Alike.walk` — so do walks; `resolve_alike` — programs that are alike have the same distances.
-/

set_option autoImplicit false

namespace Scriptlet

/-- The renamings in use send different names to different names. -/
structure Variation.Separates (V : Variation) (N : String → Prop) : Prop where
  this : N thisName
  apart : ∀ {σ τ : NameMap} {a b : String}, V.maps σ → V.maps τ → N a → N b → σ a = τ b → a = b

/-! ## Renamed scopes -/

section Scopes

variable {V : Variation} {N : String → Prop} {σ τ : NameMap} {scope : NameScope} {name : String}

/-- A renamed scope has no names but its own, under whatever renaming they are looked up. -/
theorem NameScope.lookup_of_onKeys (hV : V.Separates N) (hσ : V.maps σ) (hτ : V.maps τ)
    (hscope : ∀ entry ∈ scope, N entry.1) (hname : N name) {complete : Bool}
    (h : (σ.onKeys scope).lookup (τ name) = some complete) : scope.lookup name = some complete := by
  have heq : σ name = τ name := by
    obtain ⟨before, after, happ, -⟩ := List.lookup_eq_some_iff.mp h
    have hmem : (τ name, complete) ∈ σ.onKeys scope := by
      rw [happ]
      exact List.mem_append_right _ List.mem_cons_self
    obtain ⟨entry, hentry, hpair⟩ := List.mem_map.mp hmem
    have hkey : σ entry.1 = τ name := congrArg Prod.fst hpair
    rw [hV.apart hσ hτ (hscope entry hentry) hname hkey] at hkey
    exact hkey
  rwa [← heq, NameMap.lookup_onKeys] at h

theorem NameScope.declares_onKeys (σ : NameMap) (scope : NameScope) (name : String) :
    NameScope.declares (σ.onKeys scope) (σ name) = scope.declares name := by
  unfold NameScope.declares
  rw [NameMap.lookup_onKeys]

theorem NameScope.declares_of_onKeys (hV : V.Separates N) (hσ : V.maps σ) (hτ : V.maps τ)
    (hscope : ∀ entry ∈ scope, N entry.1) (hname : N name)
    (h : NameScope.declares (σ.onKeys scope) (τ name) = true) : scope.declares name = true := by
  obtain ⟨complete, hlookup⟩ := Option.isSome_iff_exists.mp h
  unfold NameScope.declares
  rw [NameScope.lookup_of_onKeys hV hσ hτ hscope hname hlookup]
  rfl

end Scopes

/-- The scopes of a stack, each renamed. -/
def ScopeStack.rename (Φ : List NameMap) (Γ : ScopeStack) : ScopeStack := List.zipWith NameMap.onKeys Φ Γ

section Stacks

variable {V : Variation} {N : String → Prop} {name : String}

/-- A name that no scope declares is declared by no renamed scope. -/
theorem ScopeStack.findIdx?_rename_none (hV : V.Separates N) {τ : NameMap} (hτ : V.maps τ) (hname : N name) :
    ∀ {Φ : List NameMap} {Γ : ScopeStack}, (∀ σ ∈ Φ, V.maps σ) → (∀ scope ∈ Γ, ∀ entry ∈ scope, N entry.1) →
      Γ.findIdx? (·.declares name) = none →
      (ScopeStack.rename Φ Γ).findIdx? (·.declares (τ name)) = none
  | [], _, _, _, _ => rfl
  | _ :: _, [], _, _, _ => rfl
  | σ :: Φ, scope :: Γ, hΦ, hΓ, h => by
      rw [List.findIdx?_cons] at h
      split at h
      · cases h
      · rename_i hhead
        rw [Option.map_eq_none_iff] at h
        have hrest := ScopeStack.findIdx?_rename_none hV hτ hname (fun σ hσ => hΦ σ (List.mem_cons_of_mem _ hσ))
          (fun scope hs => hΓ scope (List.mem_cons_of_mem _ hs)) h
        have hnot : ¬ NameScope.declares (σ.onKeys scope) (τ name) = true := fun hd =>
          hhead (NameScope.declares_of_onKeys hV (hΦ σ List.mem_cons_self) hτ (hΓ scope List.mem_cons_self) hname hd)
        unfold ScopeStack.rename at hrest ⊢
        rw [List.zipWith_cons_cons, List.findIdx?_cons, if_neg hnot, hrest]
        rfl

/-- A name that a scope declares is declared there under the renaming of the scope. -/
theorem ScopeStack.findIdx?_rename_some (hV : V.Separates N) (hname : N name) :
    ∀ {Φ : List NameMap} {Γ : ScopeStack} {distance : Nat}, Γ.length = Φ.length → (∀ σ ∈ Φ, V.maps σ) →
      (∀ scope ∈ Γ, ∀ entry ∈ scope, N entry.1) → Γ.findIdx? (·.declares name) = some distance →
      (ScopeStack.rename Φ Γ).findIdx? (·.declares (Φ.getD distance .keep name)) = some distance
  | [], [], _, _, _, _, h => by cases h
  | _ :: _, [], _, hlen, _, _, _ => by cases hlen
  | [], _ :: _, _, hlen, _, _, _ => by cases hlen
  | σ :: Φ, scope :: Γ, distance, hlen, hΦ, hΓ, h => by
      rw [List.findIdx?_cons] at h
      unfold ScopeStack.rename
      rw [List.zipWith_cons_cons, List.findIdx?_cons]
      split at h
      · rename_i hhead
        cases h
        rw [List.getD_cons_zero, NameScope.declares_onKeys, if_pos hhead]
      · rename_i hhead
        obtain ⟨inner, hinner, rfl⟩ := Option.map_eq_some_iff.mp h
        have hΦ' : ∀ σ ∈ Φ, V.maps σ := fun σ hσ => hΦ σ (List.mem_cons_of_mem _ hσ)
        have hrest := ScopeStack.findIdx?_rename_some hV hname (Nat.succ.inj hlen) hΦ'
          (fun scope hs => hΓ scope (List.mem_cons_of_mem _ hs)) hinner
        have hτ : V.maps (Φ.getD inner .keep) := V.maps_ofDistance hΦ' (some inner)
        have hnot : ¬ NameScope.declares (σ.onKeys scope) (Φ.getD inner .keep name) = true := fun hd =>
          hhead (NameScope.declares_of_onKeys hV (hΦ σ List.mem_cons_self) hτ (hΓ scope List.mem_cons_self) hname hd)
        unfold ScopeStack.rename at hrest
        rw [List.getD_cons_succ, if_neg hnot, hrest]
        rfl

end Stacks

/-! ## Corresponding steps -/

/-- Corresponding steps of two walks. -/
inductive ResolveStep.Alike (V : Variation) : List NameMap → ResolveStep → ResolveStep → List NameMap →
    Prop where
  | enter {Φ : List NameMap} {σ : NameMap} : V.maps σ → ResolveStep.Alike V Φ (.enter []) (.enter []) (σ :: Φ)
  | enterThis {Φ : List NameMap} :
      ResolveStep.Alike V Φ (.enter [(thisName, true)]) (.enter [(thisName, true)]) (.keep :: Φ)
  | leave {Φ : List NameMap} {σ : NameMap} : ResolveStep.Alike V (σ :: Φ) .leave .leave Φ
  | declare {Φ : List NameMap} {name name' : Ident} : name'.name = NameMap.innermost Φ name.name →
      ResolveStep.Alike V Φ (.declare name) (.declare name') Φ
  | define {Φ : List NameMap} {name name' : Ident} : name'.name = NameMap.innermost Φ name.name →
      ResolveStep.Alike V Φ (.define name) (.define name') Φ
  | read {Φ : List NameMap} {name name' : Ident} {distance : Option Nat} :
      name'.name = NameMap.ofDistance Φ distance name.name → ResolveStep.Alike V Φ (.read name) (.read name') Φ
  | refer {Φ : List NameMap} {id : NodeId} {name name' : String} :
      name' = NameMap.ofDistance Φ (V.table.distance? id) name →
      ResolveStep.Alike V Φ (.refer id name) (.refer id name') Φ
  | report {Φ : List NameMap} {line line' : Nat} {lexeme : String} {fault : StaticFault} :
      ResolveStep.Alike V Φ (.report line lexeme fault) (.report line' lexeme fault) Φ

/-- Corresponding walks. -/
inductive ResolveStep.AlikeAll (V : Variation) : List NameMap → List ResolveStep → List ResolveStep →
    List NameMap → Prop where
  | nil {Φ : List NameMap} : ResolveStep.AlikeAll V Φ [] [] Φ
  | cons {Φ Φ₁ Φ₂ : List NameMap} {step step' : ResolveStep} {rest rest' : List ResolveStep} :
      ResolveStep.Alike V Φ step step' Φ₁ → ResolveStep.AlikeAll V Φ₁ rest rest' Φ₂ →
      ResolveStep.AlikeAll V Φ (step :: rest) (step' :: rest') Φ₂

namespace ResolveStep

variable {V : Variation} {Φ Φ₁ Φ₂ : List NameMap}

theorem AlikeAll.append {as as' bs bs' : List ResolveStep} (ha : AlikeAll V Φ as as' Φ₁)
    (hb : AlikeAll V Φ₁ bs bs' Φ₂) : AlikeAll V Φ (as ++ bs) (as' ++ bs') Φ₂ := by
  induction ha with
  | nil => exact hb
  | cons hstep _ ih => exact .cons hstep (ih hb)

theorem AlikeAll.single {step step' : ResolveStep} (h : Alike V Φ step step' Φ₁) :
    AlikeAll V Φ [step] [step'] Φ₁ :=
  .cons h .nil

theorem alikeAll_introduce {name name' : Ident} (h : name'.name = NameMap.innermost Φ name.name) :
    AlikeAll V Φ (introduce name) (introduce name') Φ :=
  .cons (.declare h) (.single (.define h))

theorem alikeAll_parameters {σ : NameMap} : ∀ {params params' : List Ident},
    Variation.Parameters σ params params' →
    AlikeAll V (σ :: Φ) (params.flatMap introduce) (params'.flatMap introduce) (σ :: Φ)
  | [], [], _ => .nil
  | [], _ :: _, h => by cases h
  | _ :: _, [], h => by cases h
  | param :: params, param' :: params', h => by
      unfold Variation.Parameters at h
      rw [List.map_cons, List.map_cons, List.cons.injEq] at h
      rw [List.flatMap_cons, List.flatMap_cons]
      exact (alikeAll_introduce (Φ := σ :: Φ) h.1).append (alikeAll_parameters h.2)

theorem alikeAll_checkReturn (site : Site) (line line' : Nat) (hasValue : Bool) :
    AlikeAll V Φ (checkReturn site line hasValue) (checkReturn site line' hasValue) Φ := by
  have hreport : ∀ (c : Prop) [Decidable c] (line line' : Nat) (lexeme : String) (fault : StaticFault),
      AlikeAll V Φ (if c then [.report line lexeme fault] else []) (if c then [.report line' lexeme fault] else [])
        Φ := by
    intro c _ line line' lexeme fault
    split
    · exact .single .report
    · exact .nil
  unfold checkReturn
  exact (hreport _ _ _ _ _).append (hreport _ _ _ _ _)

end ResolveStep

open ResolveStep

mutual
theorem Expr.Alike.steps {V : Variation} {Φ : List NameMap} (site : Site) : ∀ {e e' : Expr},
    e.Alike V Φ e' → ResolveStep.AlikeAll V Φ (e.steps site) (e'.steps site) Φ
  | _, _, .lit _ => .nil
  | _, _, .group h => h.steps site
  | _, _, .unary _ h => h.steps site
  | _, _, .binary _ ha hb => (ha.steps site).append (hb.steps site)
  | _, _, .logical _ ha hb => (ha.steps site).append (hb.steps site)
  | _, _, .ternary ha hb hc => ((ha.steps site).append (hb.steps site)).append (hc.steps site)
  | _, _, .var h => .cons (.read h.spelling) (.single (.refer h.spelling))
  | _, _, .assign h ha => (ha.steps site).append (.single (.refer h.spelling))
  | _, _, .update h _ ha => (ha.steps site).append (.single (.refer h.spelling))
  | _, _, .this h => by
      unfold Expr.steps
      split
      · exact .single (.refer h.spelling)
      · exact .single .report
  | _, _, .array h => h.steps site
  | _, _, .index _ ha hb => (ha.steps site).append (hb.steps site)
  | _, _, .call _ ha hes => (ha.steps site).append (hes.steps site)
  | _, _, .get _ h => h.steps site
  | _, _, .set _ ha hb => (hb.steps site).append (ha.steps site)
theorem Expr.AlikeAll.steps {V : Variation} {Φ : List NameMap} (site : Site) : ∀ {es es' : List Expr},
    Expr.AlikeAll V Φ es es' → ResolveStep.AlikeAll V Φ (Expr.stepsAll site es) (Expr.stepsAll site es') Φ
  | _, _, .nil => .nil
  | _, _, .cons h hs => (h.steps site).append (hs.steps site)
end

mutual
theorem Stmt.Alike.steps {V : Variation} (site : Site) : ∀ {Φ : List NameMap} {s s' : Stmt},
    s.Alike V Φ s' → ResolveStep.AlikeAll V Φ (s.steps site) (s'.steps site) Φ
  | _, _, _, .expr h => h.steps site
  | _, _, _, .print h => h.steps site
  | _, _, _, .var hname => alikeAll_introduce hname
  | _, _, _, .init hname h => .cons (.declare hname) ((h.steps site).append (.single (.define hname)))
  | _, _, _, .block hσ h => .cons (.enter hσ) ((h.steps site).append (.single .leave))
  | _, _, _, .ifThen he ha => (he.steps site).append (ha.steps site)
  | _, _, _, .ifElse he ha hb => ((he.steps site).append (ha.steps site)).append (hb.steps site)
  | _, _, _, .whileLoop he ha => (he.steps site).append (ha.steps site)
  | _, .function d, .function d', .function hname h => by
      refine (alikeAll_introduce ?_).append (h.steps ⟨.function, site.inClass⟩)
      rw [h.name, hname]
  | _, _, _, .classDecl hname _ hds => by
      refine (alikeAll_introduce ?_).append (.cons .enterThis (hds.steps.append (.single .leave)))
      exact hname.symm
  | _, _, _, .ret line line' => alikeAll_checkReturn site line line' false
  | _, _, _, .value h => (alikeAll_checkReturn site _ _ true).append (h.steps site)
theorem Stmt.AlikeAll.steps {V : Variation} (site : Site) : ∀ {Φ : List NameMap} {ss ss' : List Stmt},
    Stmt.AlikeAll V Φ ss ss' → ResolveStep.AlikeAll V Φ (Stmt.stepsAll site ss) (Stmt.stepsAll site ss') Φ
  | _, _, _, .nil => .nil
  | _, _, _, .cons h hs => (h.steps site).append (hs.steps site)
theorem FunctionDecl.Alike.steps {V : Variation} (site : Site) : ∀ {Φ : List NameMap}
    {d d' : FunctionDecl}, d.Alike V Φ d' → ResolveStep.AlikeAll V Φ (d.steps site) (d'.steps site) Φ
  | _, _, _, .mk _ hσ hparams h =>
      .cons (.enter hσ) (((alikeAll_parameters hparams).append (h.steps site)).append (.single .leave))
theorem FunctionDecl.AlikeAll.steps {V : Variation} : ∀ {Φ : List NameMap}
    {ds ds' : List FunctionDecl}, FunctionDecl.AlikeAll V Φ ds ds' →
    ResolveStep.AlikeAll V Φ (FunctionDecl.stepsAll ds) (FunctionDecl.stepsAll ds') Φ
  | _, _, _, .nil => .nil
  | _, _ :: _, _ :: _, .cons h hs => by
      unfold FunctionDecl.stepsAll
      rw [h.name]
      exact (h.steps _).append hs.steps
end

/-! ## Corresponding states -/

/-- Corresponding states of two walks. -/
structure Resolution.Alike (V : Variation) (N : String → Prop) (Φ : List NameMap) (st st' : Resolution) :
    Prop where
  maps : ∀ σ ∈ Φ, V.maps σ
  length : st.scopes.length = Φ.length
  scopes : st'.scopes = ScopeStack.rename Φ st.scopes
  names : ∀ scope ∈ st.scopes, ∀ entry ∈ scope, N entry.1
  table : st'.table = st.table
  errors : st'.errors = []

/-- The name that a step declares, reads or refers to. -/
def ResolveStep.name? : ResolveStep → Option String
  | .declare name => some name.name
  | .define name => some name.name
  | .read name => some name.name
  | .refer _ name => some name
  | _ => none

namespace Resolution

variable {V : Variation} {N : String → Prop} {Φ Φ' : List NameMap} {st st' : Resolution}

/-- Errors stay on record. -/
theorem errors_of_apply (st : Resolution) (step : ResolveStep) (h : (st.apply step).errors = []) :
    st.errors = [] := by
  cases step with
  | enter _ | leave => exact h
  | declare name => exact (walks_declare st name).errors h
  | define name => exact (walks_mark st name.name true).errors h
  | read name => exact (walks_ifReport _ st _ _ _).errors h
  | refer id name => exact (walks_refer st id name).errors h
  | report line lexeme fault => exact (walks_report st line lexeme fault).errors h

theorem errors_of_walk (steps : List ResolveStep) (st : Resolution) (h : (st.walk steps).errors = []) :
    st.errors = [] := by
  induction steps generalizing st with
  | nil => exact h
  | cons step steps ih => exact errors_of_apply st step (ih (st.apply step) h)

/-- There is no local scope in either state, or an innermost one in both. -/
theorem Alike.innermost_cases (h : Alike V N Φ st st') :
    (Φ = [] ∧ st.scopes = [] ∧ st'.scopes = []) ∨
      ∃ σ Φ₁ scope Γ, Φ = σ :: Φ₁ ∧ st.scopes = scope :: Γ ∧
        st'.scopes = σ.onKeys scope :: ScopeStack.rename Φ₁ Γ := by
  have hlength := h.length
  have hscopes := h.scopes
  cases hst : st.scopes with
  | nil =>
      rw [hst] at hlength hscopes
      have hΦ : Φ = [] := List.eq_nil_of_length_eq_zero hlength.symm
      subst hΦ
      exact .inl ⟨rfl, rfl, hscopes⟩
  | cons scope Γ =>
      rw [hst] at hlength hscopes
      cases Φ with
      | nil => cases hlength
      | cons σ Φ₁ => exact .inr ⟨σ, Φ₁, scope, Γ, rfl, rfl, hscopes⟩

/-- Entering a scope, with the renaming of its names. -/
theorem Alike.enter (h : Alike V N Φ st st') {σ : NameMap} (hσ : V.maps σ) {scope : NameScope}
    (hscope : ∀ entry ∈ scope, N entry.1) :
    Alike V N (σ :: Φ) (st.enter scope) (st'.enter (σ.onKeys scope)) := by
  refine ⟨fun τ hτ => ?_, congrArg (· + 1) h.length, ?_, fun s hs => ?_, h.table, h.errors⟩
  · rcases List.mem_cons.mp hτ with rfl | hτ
    · exact hσ
    · exact h.maps τ hτ
  · show σ.onKeys scope :: st'.scopes = ScopeStack.rename (σ :: Φ) (scope :: st.scopes)
    rw [h.scopes]
    rfl
  · rcases List.mem_cons.mp hs with rfl | hs
    · exact hscope
    · exact h.names s hs

/-- Leaving the innermost scope, and its renaming with it. -/
theorem Alike.leave {σ : NameMap} (h : Alike V N (σ :: Φ) st st') : Alike V N Φ st.leave st'.leave := by
  rcases h.innermost_cases with ⟨hΦ, -, -⟩ | ⟨τ, Φ₁, scope, Γ, hΦ, hst, hst'⟩
  · cases hΦ
  · cases hΦ
    have hlength := h.length
    have hnames := h.names
    rw [hst] at hlength hnames
    have hleave : st.leave.scopes = Γ := by
      show st.scopes.tail = Γ
      rw [hst, List.tail_cons]
    refine ⟨fun τ hτ => h.maps τ (List.mem_cons_of_mem _ hτ), ?_, ?_, ?_, h.table, h.errors⟩
    · rw [hleave]
      exact Nat.succ.inj hlength
    · rw [hleave]
      show st'.scopes.tail = _
      rw [hst', List.tail_cons]
    · rw [hleave]
      exact fun s hs => hnames s (List.mem_cons_of_mem _ hs)

/-- Entering a name under the renaming of the innermost scope. -/
theorem Alike.mark (h : Alike V N Φ st st') {name : String} (hname : N name) (complete : Bool) :
    Alike V N Φ (st.mark name complete) (st'.mark (NameMap.innermost Φ name) complete) := by
  rcases h.innermost_cases with ⟨rfl, hst, hst'⟩ | ⟨σ, Φ₁, scope, Γ, rfl, hst, hst'⟩
  · have h₁ : st.mark name complete = st := by simp only [Resolution.mark, hst]
    have h₂ : st'.mark (NameMap.innermost [] name) complete = st' := by simp only [Resolution.mark, hst']
    rw [h₁, h₂]
    exact h
  · have hlength := h.length
    have hnames := h.names
    rw [hst] at hlength hnames
    simp only [Resolution.mark, hst, hst', NameMap.innermost, List.headD_cons]
    refine ⟨h.maps, hlength, rfl, fun s hs entry hentry => ?_, h.table, h.errors⟩
    rcases List.mem_cons.mp hs with rfl | hs
    · rcases List.mem_cons.mp hentry with rfl | hentry
      · exact hname
      · exact hnames scope List.mem_cons_self entry hentry
    · exact hnames s (List.mem_cons_of_mem _ hs) entry hentry

/-- Whether the innermost scope declares a name. -/
theorem Alike.taken (h : Alike V N Φ st st') (name : String) :
    st'.scopes.head?.any (·.declares (NameMap.innermost Φ name)) = st.scopes.head?.any (·.declares name) := by
  rcases h.innermost_cases with ⟨rfl, hst, hst'⟩ | ⟨σ, Φ₁, scope, Γ, rfl, hst, hst'⟩
  · rw [hst, hst']
    rfl
  · rw [hst, hst']
    exact NameScope.declares_onKeys σ scope name

/-- A name that is not being declared is not being declared under any renaming either. -/
theorem Alike.pending (hV : V.Separates N) (h : Alike V N Φ st st') {name : String} (hname : N name)
    {τ : NameMap} (hτ : V.maps τ) (hpending : st.isPending name = false) : st'.isPending (τ name) = false := by
  unfold isPending at *
  rcases h.innermost_cases with ⟨rfl, hst, hst'⟩ | ⟨σ, Φ₁, scope, Γ, rfl, hst, hst'⟩
  · rw [hst']
    rfl
  · have hnames := h.names
    rw [hst] at hnames hpending
    rw [hst']
    refine Bool.eq_false_iff.mpr fun htrue => ?_
    have hlookup : (σ.onKeys scope).lookup (τ name) = some false := eq_of_beq htrue
    have hold := NameScope.lookup_of_onKeys hV (h.maps σ List.mem_cons_self) hτ
      (hnames scope List.mem_cons_self) hname hlookup
    have hnot : (scope.lookup name == some false) = false := hpending
    rw [hold] at hnot
    cases hnot

/-- **A step leads from corresponding states to corresponding states.**  A reference is filed alike if the table
says what is filed for it. -/
theorem Alike.apply (hV : V.Separates N) {step step' : ResolveStep} (h : Alike V N Φ st st')
    (hstep : ResolveStep.Alike V Φ step step' Φ') (hname : ∀ name, step.name? = some name → N name)
    (herrors : (st.apply step).errors = [])
    (hfiled : ∀ id name, step = .refer id name →
      V.table.distance? id = st.scopes.findIdx? (·.declares name)) :
    Alike V N Φ' (st.apply step) (st'.apply step') := by
  cases hstep with
  | enter hσ => exact h.enter hσ nofun
  | enterThis =>
      refine h.enter V.keep fun entry hentry => ?_
      rw [List.mem_singleton.mp hentry]
      exact hV.this
  | leave => exact h.leave
  | @declare _ name name' hspelling =>
      have hmark := h.mark (hname name.name rfl) false
      have htaken := h.taken name.name
      show Alike V N Φ (st.declare name) (st'.declare name')
      unfold Resolution.declare
      simp only
      rw [hspelling, htaken]
      cases hhead : st.scopes.head?.any (·.declares name.name) with
      | false => exact hmark
      | true =>
          -- A name that is taken would have been reported.
          have hreport : (st.report name.line name.name .redeclared).errors = [] := by
            refine (walks_mark _ name.name false).errors ?_
            have hdeclare : (st.declare name).errors = [] := herrors
            unfold Resolution.declare at hdeclare
            simpa only [hhead, if_true] using hdeclare
          simp [Resolution.report] at hreport
  | @define _ name name' hspelling =>
      show Alike V N Φ (st.mark name.name true) (st'.mark name'.name true)
      rw [hspelling]
      exact h.mark (hname name.name rfl) true
  | @read _ name name' distance hspelling =>
      have hleft : st.isPending name.name = false := by
        refine Bool.eq_false_iff.mpr fun htrue => ?_
        have hreport : (if st.isPending name.name then st.report name.line name.name .readInOwnInitializer
          else st).errors = [] := herrors
        rw [if_pos htrue] at hreport
        simp [Resolution.report] at hreport
      have hright := h.pending hV (hname name.name rfl) (V.maps_ofDistance h.maps distance) hleft
      show Alike V N Φ (if st.isPending name.name then _ else st) (if st'.isPending name'.name then _ else st')
      rw [hspelling, hleft, hright]
      exact h
  | @refer _ id name name' hspelling =>
      have hdistance := hfiled id name rfl
      have hindex : st'.scopes.findIdx? (·.declares name') = st.scopes.findIdx? (·.declares name) := by
        rw [hspelling, hdistance, h.scopes]
        cases hfind : st.scopes.findIdx? (·.declares name) with
        | none =>
            exact ScopeStack.findIdx?_rename_none hV V.keep (hname name rfl) h.maps h.names hfind
        | some distance =>
            exact ScopeStack.findIdx?_rename_some hV (hname name rfl) h.length h.maps h.names hfind
      show Alike V N Φ (st.refer id name) (st'.refer id name')
      unfold Resolution.refer
      rw [hindex]
      cases st.scopes.findIdx? (·.declares name) with
      | none => exact h
      | some distance =>
          exact ⟨h.maps, h.length, h.scopes, h.names, congrArg (·.file id distance) h.table, h.errors⟩
  | report => simp [Resolution.apply, Resolution.report] at herrors

/-- **Walks lead from corresponding states to corresponding states.** -/
theorem Alike.walk (hV : V.Separates N) {steps steps' : List ResolveStep}
    (hsteps : ResolveStep.AlikeAll V Φ steps steps' Φ') : ∀ {st st' : Resolution}, Alike V N Φ st st' →
    (∀ step ∈ steps, ∀ name, step.name? = some name → N name) → (st.walk steps).errors = [] →
    (∀ before id name after, steps = before ++ .refer id name :: after →
      V.table.distance? id = (st.walk before).scopes.findIdx? (·.declares name)) →
    Alike V N Φ' (st.walk steps) (st'.walk steps') := by
  induction hsteps with
  | nil => exact fun h _ _ _ => h
  | @cons Φ Φ₁ Φ₂ step step' rest rest' hstep _ ih =>
      intro st st' h hnames herrors hfiled
      have hfirst : Alike V N Φ₁ (st.apply step) (st'.apply step') := by
        refine h.apply hV hstep (hnames step List.mem_cons_self) (errors_of_walk rest _ herrors) ?_
        rintro id name rfl
        exact hfiled [] id name rest rfl
      refine ih hfirst (fun s hs => hnames s (List.mem_cons_of_mem _ hs)) herrors ?_
      intro before id name after hsplit
      exact hfiled (step :: before) id name after (by rw [hsplit]; rfl)

end Resolution

/-- The names that a program declares or refers to. -/
def Program.names (p : Program) : List String := p.steps.filterMap ResolveStep.name?

/-- **Programs that are alike have the same distances.**  If a program resolves without error, so does a program that
is like it under the table it resolves to. -/
theorem resolve_alike {V : Variation} {N : String → Prop} {T : DistanceTable} {p p' : Program}
    (hV : V.Separates N) (hp : Stmt.AlikeAll V [] p p') (hnames : ∀ name ∈ p.names, N name)
    (herrors : (resolve T p).errors = []) (hnodup : (Reference.ids (Stmt.referencesAll p)).Nodup)
    (hfree : ∀ id ∈ Reference.ids (Stmt.referencesAll p), T.distance? id = none)
    (htable : V.table = (resolve T p).table) :
    (resolve T p').errors = [] ∧ (resolve T p').table = (resolve T p).table := by
  rw [resolve_eq_walk] at herrors htable
  rw [resolve_eq_walk, resolve_eq_walk]
  have hfree' : ∀ id ∈ referred p.steps, T.distance? id = none :=
    fun id hid => hfree id (Program.mem_ids_of_referred hid)
  have hstart : Resolution.Alike V N [] ⟨[], T, []⟩ ⟨[], T, []⟩ := ⟨nofun, rfl, rfl, nofun, rfl, rfl⟩
  have hend := hstart.walk hV (hp.steps ⟨.none, false⟩) ?_ herrors ?_
  · exact ⟨hend.errors, hend.table⟩
  · intro step hstep name hname
    exact hnames name (List.mem_filterMap.mpr ⟨step, hstep, hname⟩)
  · intro before id name after hsplit
    rw [htable]
    exact Resolution.walk_distance? (Program.nodup_referred hnodup) hfree' hsplit

end Scriptlet
