import Scriptlet.Proofs.Scoping.Resolver

/-!
# The resolver step by step

What the resolver does at a point of a program depends on its state, but which steps it takes does not.

* `ResolveStep` — one step, and `Resolution.apply` — what it does to the state.
* `Stmt.steps site s` — the steps over a statement, in the order of the walk.
* `ResolveStep.referred` — the node ids under which steps may file a distance.

Principal results: `resolve_eq_walk` — resolving a program is taking its steps; `Stmt.count_referred_le` — no node is
referred to more often than it occurs; `Resolution.walk_fresh`, `Resolution.walk_distance?` — when every node is
referred to once, a distance is filed under an id without one, and it is what the table says at the end.
-/

set_option autoImplicit false

namespace Scriptlet

/-- A step of the resolver. -/
inductive ResolveStep where
  | enter (scope : NameScope)
  | leave
  | declare (name : Ident)
  | define (name : Ident)
  /-- Checks that a variable which is read is not being declared. -/
  | read (name : Ident)
  | refer (id : NodeId) (name : String)
  | report (line : Nat) (lexeme : String) (fault : StaticFault)
  deriving DecidableEq, Repr

namespace ResolveStep

/-- The steps of a declaration without an initializer. -/
def introduce (name : Ident) : List ResolveStep := [.declare name, .define name]

/-- The steps over a `return` statement. -/
def checkReturn (site : Site) (line : Nat) (hasValue : Bool) : List ResolveStep :=
  (if site.function = .none then [.report line "return" .topLevelReturn] else []) ++
    if hasValue ∧ site.function = .initializer then [.report line "return" .initializerReturn] else []

/-- The node ids under which steps may file a distance. -/
def referred : List ResolveStep → List NodeId
  | [] => []
  | .refer id _ :: rest => id :: referred rest
  | _ :: rest => referred rest

@[simp] theorem referred_append (as bs : List ResolveStep) :
    referred (as ++ bs) = referred as ++ referred bs := by
  induction as with
  | nil => rfl
  | cons step as ih => cases step <;> simp [referred, ih]

end ResolveStep

open ResolveStep

mutual
/-- The steps over an expression. -/
def Expr.steps (site : Site) : Expr → List ResolveStep
  | .lit _ => []
  | .group inner => inner.steps site
  | .unary _ operand => operand.steps site
  | .binary _ left right => left.steps site ++ right.steps site
  | .logical _ left right => left.steps site ++ right.steps site
  | .ternary test whenTrue whenFalse => test.steps site ++ whenTrue.steps site ++ whenFalse.steps site
  | .var id name => [.read name, .refer id name.name]
  | .assign id name value => value.steps site ++ [.refer id name.name]
  | .update id name _ operand => operand.steps site ++ [.refer id name.name]
  | .this id line =>
      if site.inClass then [.refer id thisName] else [.report line thisName .thisOutsideClass]
  | .array items => Expr.stepsAll site items
  | .index target _ position => target.steps site ++ position.steps site
  | .call callee _ args => callee.steps site ++ Expr.stepsAll site args
  | .get object _ => object.steps site
  | .set object _ value => value.steps site ++ object.steps site
/-- The steps over expressions from left to right. -/
def Expr.stepsAll (site : Site) : List Expr → List ResolveStep
  | [] => []
  | e :: rest => e.steps site ++ Expr.stepsAll site rest
end

mutual
/-- The steps over a statement. -/
def Stmt.steps (site : Site) : Stmt → List ResolveStep
  | .expr e => e.steps site
  | .print e => e.steps site
  | .var name none => introduce name
  | .var name (some init) => .declare name :: (init.steps site ++ [.define name])
  | .block body => .enter [] :: (Stmt.stepsAll site body ++ [.leave])
  | .ifElse test whenTrue none => test.steps site ++ whenTrue.steps site
  | .ifElse test whenTrue (some whenFalse) =>
      test.steps site ++ whenTrue.steps site ++ whenFalse.steps site
  | .whileLoop test body => test.steps site ++ body.steps site
  | .function decl => introduce decl.name ++ decl.steps ⟨.function, site.inClass⟩
  | .classDecl name methods =>
      introduce name ++ .enter [(thisName, true)] :: (FunctionDecl.stepsAll methods ++ [.leave])
  | .ret line none => checkReturn site line false
  | .ret line (some value) => checkReturn site line true ++ value.steps site
/-- The steps over statements in order. -/
def Stmt.stepsAll (site : Site) : List Stmt → List ResolveStep
  | [] => []
  | s :: rest => s.steps site ++ Stmt.stepsAll site rest
/-- The steps over a function. -/
def FunctionDecl.steps (site : Site) : FunctionDecl → List ResolveStep
  | .mk _ params body => .enter [] :: (params.flatMap introduce ++ Stmt.stepsAll site body ++ [.leave])
/-- The steps over the methods of a class. -/
def FunctionDecl.stepsAll : List FunctionDecl → List ResolveStep
  | [] => []
  | m :: rest => m.steps ⟨.ofMethod m.name.name, true⟩ ++ FunctionDecl.stepsAll rest
end

/-- The steps over a program. -/
def Program.steps (p : Program) : List ResolveStep := Stmt.stepsAll ⟨.none, false⟩ p

/-! ## Resolving is walking -/

namespace Resolution

/-- What a step does to the state. -/
def apply (st : Resolution) : ResolveStep → Resolution
  | .enter scope => st.enter scope
  | .leave => st.leave
  | .declare name => st.declare name
  | .define name => st.define name
  | .read name => if st.isPending name.name then st.report name.line name.name .readInOwnInitializer else st
  | .refer id name => st.refer id name
  | .report line lexeme fault => st.report line lexeme fault

/-- Takes steps one after another. -/
def walk (st : Resolution) (steps : List ResolveStep) : Resolution := steps.foldl apply st

@[simp] theorem walk_nil (st : Resolution) : st.walk [] = st := rfl

@[simp] theorem walk_cons (st : Resolution) (step : ResolveStep) (rest : List ResolveStep) :
    st.walk (step :: rest) = (st.apply step).walk rest := rfl

@[simp] theorem walk_append (st : Resolution) (as bs : List ResolveStep) :
    st.walk (as ++ bs) = (st.walk as).walk bs :=
  List.foldl_append

theorem walk_introduce (st : Resolution) (name : Ident) :
    st.walk (ResolveStep.introduce name) = st.introduce name := rfl

theorem walk_parameters (params : List Ident) (st : Resolution) :
    st.walk (params.flatMap ResolveStep.introduce) = params.foldl Resolution.introduce st := by
  induction params generalizing st with
  | nil => rfl
  | cons param params ih => rw [List.flatMap_cons, walk_append, walk_introduce, ih, List.foldl_cons]

theorem walk_checkReturn (site : Site) (line : Nat) (hasValue : Bool) (st : Resolution) :
    st.walk (ResolveStep.checkReturn site line hasValue) = st.checkReturn site line hasValue := by
  unfold ResolveStep.checkReturn Resolution.checkReturn
  rw [walk_append]
  split <;> split <;> rfl

end Resolution

open Resolution

mutual
theorem Expr.resolve_eq_walk (site : Site) : ∀ (e : Expr) (st : Resolution),
    e.resolve site st = st.walk (e.steps site)
  | .lit _, _ => rfl
  | .group inner, st => inner.resolve_eq_walk site st
  | .unary _ operand, st => operand.resolve_eq_walk site st
  | .binary _ left right, st | .logical _ left right, st => by
      simp [Expr.resolve, Expr.steps, left.resolve_eq_walk site, right.resolve_eq_walk site]
  | .ternary test whenTrue whenFalse, st => by
      simp [Expr.resolve, Expr.steps, test.resolve_eq_walk site, whenTrue.resolve_eq_walk site,
        whenFalse.resolve_eq_walk site]
  | .var _ _, _ => rfl
  | .assign _ _ value, st => by simp [Expr.resolve, Expr.steps, value.resolve_eq_walk site, apply]
  | .update _ _ _ operand, st => by simp [Expr.resolve, Expr.steps, operand.resolve_eq_walk site, apply]
  | .this id line, st => by
      rw [Expr.resolve, Expr.steps]
      split <;> rfl
  | .array items, st => Expr.resolveAll_eq_walk site items st
  | .index target _ position, st => by
      simp [Expr.resolve, Expr.steps, target.resolve_eq_walk site, position.resolve_eq_walk site]
  | .call callee _ args, st => by
      simp [Expr.resolve, Expr.steps, callee.resolve_eq_walk site, Expr.resolveAll_eq_walk site args]
  | .get object _, st => object.resolve_eq_walk site st
  | .set object _ value, st => by
      simp [Expr.resolve, Expr.steps, value.resolve_eq_walk site, object.resolve_eq_walk site]
theorem Expr.resolveAll_eq_walk (site : Site) : ∀ (es : List Expr) (st : Resolution),
    Expr.resolveAll site es st = st.walk (Expr.stepsAll site es)
  | [], _ => rfl
  | e :: es, st => by
      simp [Expr.resolveAll, Expr.stepsAll, e.resolve_eq_walk site, Expr.resolveAll_eq_walk site es]
end

mutual
theorem Stmt.resolve_eq_walk (site : Site) : ∀ (s : Stmt) (st : Resolution),
    s.resolve site st = st.walk (s.steps site)
  | .expr e, st => e.resolve_eq_walk site st
  | .print e, st => e.resolve_eq_walk site st
  | .var _ none, _ => rfl
  | .var _ (some init), st => by simp [Stmt.resolve, Stmt.steps, init.resolve_eq_walk site, apply]
  | .block body, st => by simp [Stmt.resolve, Stmt.steps, Stmt.resolveAll_eq_walk site body, apply]
  | .ifElse test whenTrue none, st => by
      simp [Stmt.resolve, Stmt.steps, test.resolve_eq_walk site, whenTrue.resolve_eq_walk site]
  | .ifElse test whenTrue (some whenFalse), st => by
      simp [Stmt.resolve, Stmt.steps, test.resolve_eq_walk site, whenTrue.resolve_eq_walk site,
        whenFalse.resolve_eq_walk site]
  | .whileLoop test body, st => by
      simp [Stmt.resolve, Stmt.steps, test.resolve_eq_walk site, body.resolve_eq_walk site]
  | .function decl, st => by
      simp [Stmt.resolve, Stmt.steps, walk_introduce, decl.resolve_eq_walk _]
  | .classDecl name methods, st => by
      simp [Stmt.resolve, Stmt.steps, walk_introduce, FunctionDecl.resolveMethods_eq_walk methods, apply]
  | .ret line none, st => (walk_checkReturn site line false st).symm
  | .ret line (some value), st => by
      simp [Stmt.resolve, Stmt.steps, walk_checkReturn, value.resolve_eq_walk site]
theorem Stmt.resolveAll_eq_walk (site : Site) : ∀ (ss : List Stmt) (st : Resolution),
    Stmt.resolveAll site ss st = st.walk (Stmt.stepsAll site ss)
  | [], _ => rfl
  | s :: ss, st => by
      simp [Stmt.resolveAll, Stmt.stepsAll, s.resolve_eq_walk site, Stmt.resolveAll_eq_walk site ss]
theorem FunctionDecl.resolve_eq_walk (site : Site) : ∀ (d : FunctionDecl) (st : Resolution),
    d.resolve site st = st.walk (d.steps site)
  | .mk _ params body, st => by
      simp [FunctionDecl.resolve, FunctionDecl.steps, walk_parameters, Stmt.resolveAll_eq_walk site body, apply]
theorem FunctionDecl.resolveMethods_eq_walk : ∀ (ms : List FunctionDecl) (st : Resolution),
    FunctionDecl.resolveMethods ms st = st.walk (FunctionDecl.stepsAll ms)
  | [], _ => rfl
  | m :: ms, st => by
      simp [FunctionDecl.resolveMethods, FunctionDecl.stepsAll, m.resolve_eq_walk _,
        FunctionDecl.resolveMethods_eq_walk ms]
end

/-- **Resolving a program is taking its steps.** -/
theorem resolve_eq_walk (table : DistanceTable) (p : Program) :
    resolve table p = ⟨((⟨[], table, []⟩ : Resolution).walk p.steps).table,
      ((⟨[], table, []⟩ : Resolution).walk p.steps).errors⟩ := by
  unfold resolve Program.steps
  rw [Stmt.resolveAll_eq_walk]

/-! ## Nodes that are referred to -/

@[simp] theorem ResolveStep.referred_introduce (name : Ident) :
    referred (ResolveStep.introduce name) = [] := rfl

@[simp] theorem ResolveStep.referred_parameters (params : List Ident) :
    referred (params.flatMap ResolveStep.introduce) = [] := by
  induction params with
  | nil => rfl
  | cons param params ih => rw [List.flatMap_cons, referred_append, ih, referred_introduce, List.nil_append]

@[simp] theorem ResolveStep.referred_checkReturn (site : Site) (line : Nat) (hasValue : Bool) :
    referred (ResolveStep.checkReturn site line hasValue) = [] := by
  unfold ResolveStep.checkReturn
  split <;> split <;> rfl

mutual
theorem Expr.count_referred_le (site : Site) (id : NodeId) : ∀ e : Expr,
    (referred (e.steps site)).count id ≤ (Reference.ids e.references).count id
  | .lit _ => Nat.le_refl _
  | .group inner => inner.count_referred_le site id
  | .unary _ operand => operand.count_referred_le site id
  | .binary _ left right | .logical _ left right | .index left _ right => by
      have hl := left.count_referred_le site id
      have hr := right.count_referred_le site id
      simp only [Expr.steps, Expr.references, referred_append, Reference.ids_append, List.count_append]
      omega
  | .ternary test whenTrue whenFalse => by
      have ht := test.count_referred_le site id
      have ha := whenTrue.count_referred_le site id
      have hb := whenFalse.count_referred_le site id
      simp only [Expr.steps, Expr.references, referred_append, Reference.ids_append, List.count_append]
      omega
  | .var _ _ => Nat.le_refl _
  | .assign id' _ value => by
      have hv := value.count_referred_le site id
      simp only [Expr.steps, Expr.references, referred_append, Reference.ids_cons, List.count_append,
        referred, List.count_cons, List.count_nil]
      omega
  | .update id' _ _ operand => by
      have ho := operand.count_referred_le site id
      simp only [Expr.steps, Expr.references, referred_append, Reference.ids_cons, List.count_append,
        referred, List.count_cons, List.count_nil]
      omega
  | .this id' line => by
      rw [Expr.steps]
      split
      · exact Nat.le_refl _
      · exact Nat.zero_le _
  | .array items => Expr.count_referredAll_le site id items
  | .call callee _ args => by
      have hc := callee.count_referred_le site id
      have ha := Expr.count_referredAll_le site id args
      simp only [Expr.steps, Expr.references, referred_append, Reference.ids_append, List.count_append]
      omega
  | .get object _ => object.count_referred_le site id
  | .set object _ value => by
      have ho := object.count_referred_le site id
      have hv := value.count_referred_le site id
      simp only [Expr.steps, Expr.references, referred_append, Reference.ids_append, List.count_append]
      omega
theorem Expr.count_referredAll_le (site : Site) (id : NodeId) : ∀ es : List Expr,
    (referred (Expr.stepsAll site es)).count id ≤ (Reference.ids (Expr.referencesAll es)).count id
  | [] => Nat.le_refl _
  | e :: es => by
      have he := e.count_referred_le site id
      have hes := Expr.count_referredAll_le site id es
      simp only [Expr.stepsAll, Expr.referencesAll, referred_append, Reference.ids_append, List.count_append]
      omega
end

mutual
theorem Stmt.count_referred_le (site : Site) (id : NodeId) : ∀ s : Stmt,
    (referred (s.steps site)).count id ≤ (Reference.ids s.references).count id
  | .expr e => e.count_referred_le site id
  | .print e => e.count_referred_le site id
  | .var _ none => Nat.le_refl _
  | .var _ (some init) => by
      have hi := init.count_referred_le site id
      simpa [Stmt.steps, Stmt.references, Expr.referencesOpt, referred] using hi
  | .block body => by
      have hb := Stmt.count_referredAll_le site id body
      simpa [Stmt.steps, Stmt.references, referred] using hb
  | .ifElse test whenTrue none => by
      have ht := test.count_referred_le site id
      have ha := whenTrue.count_referred_le site id
      simp only [Stmt.steps, Stmt.references, referred_append, Reference.ids_append, List.count_append]
      omega
  | .ifElse test whenTrue (some whenFalse) => by
      have ht := test.count_referred_le site id
      have ha := whenTrue.count_referred_le site id
      have hb := whenFalse.count_referred_le site id
      simp only [Stmt.steps, Stmt.references, referred_append, Reference.ids_append, List.count_append]
      omega
  | .whileLoop test body => by
      have ht := test.count_referred_le site id
      have hb := body.count_referred_le site id
      simp only [Stmt.steps, Stmt.references, referred_append, Reference.ids_append, List.count_append]
      omega
  | .function decl => by
      have hd := decl.count_referred_le ⟨.function, site.inClass⟩ id
      simpa [Stmt.steps, Stmt.references] using hd
  | .classDecl name methods => by
      have hm := FunctionDecl.count_referredAll_le id methods
      simpa [Stmt.steps, Stmt.references, referred] using hm
  | .ret line none => by simp [Stmt.steps]
  | .ret line (some value) => by
      have hv := value.count_referred_le site id
      simpa [Stmt.steps, Stmt.references, Expr.referencesOpt] using hv
theorem Stmt.count_referredAll_le (site : Site) (id : NodeId) : ∀ ss : List Stmt,
    (referred (Stmt.stepsAll site ss)).count id ≤ (Reference.ids (Stmt.referencesAll ss)).count id
  | [] => Nat.le_refl _
  | s :: ss => by
      have hs := s.count_referred_le site id
      have hss := Stmt.count_referredAll_le site id ss
      simp only [Stmt.stepsAll, Stmt.referencesAll, referred_append, Reference.ids_append, List.count_append]
      omega
theorem FunctionDecl.count_referred_le (site : Site) (id : NodeId) : ∀ d : FunctionDecl,
    (referred (d.steps site)).count id ≤ (Reference.ids d.references).count id
  | .mk _ params body => by
      have hb := Stmt.count_referredAll_le site id body
      simpa [FunctionDecl.steps, FunctionDecl.references, referred] using hb
theorem FunctionDecl.count_referredAll_le (id : NodeId) : ∀ ms : List FunctionDecl,
    (referred (FunctionDecl.stepsAll ms)).count id ≤
      (Reference.ids (FunctionDecl.referencesAll ms)).count id
  | [] => Nat.le_refl _
  | m :: ms => by
      have hm := m.count_referred_le ⟨.ofMethod m.name.name, true⟩ id
      have hms := FunctionDecl.count_referredAll_le id ms
      simp only [FunctionDecl.stepsAll, FunctionDecl.referencesAll, referred_append, Reference.ids_append,
        List.count_append]
      omega
end

/-- Only nodes of a program are referred to. -/
theorem Program.mem_ids_of_referred {p : Program} {id : NodeId} (h : id ∈ referred p.steps) :
    id ∈ Reference.ids (Stmt.referencesAll p) := by
  have hle := Stmt.count_referredAll_le ⟨.none, false⟩ id p
  exact List.count_pos_iff.mp (Nat.lt_of_lt_of_le (List.count_pos_iff.mpr h) hle)

/-- Nodes with ids of their own are referred to once. -/
theorem Program.nodup_referred {p : Program} (h : (Reference.ids (Stmt.referencesAll p)).Nodup) :
    (referred p.steps).Nodup := by
  rw [List.nodup_iff_count] at h ⊢
  exact fun id => Nat.le_trans (Stmt.count_referredAll_le ⟨.none, false⟩ id p) (h id)

/-! ## Distances on the way -/

namespace Resolution

variable {st : Resolution} {steps pre post : List ResolveStep} {id : NodeId} {name : String}

/-- Only a reference to a node changes the entry of the node. -/
theorem apply_distance? (st : Resolution) (step : ResolveStep) (h : id ∉ referred [step]) :
    (st.apply step).table.distance? id = st.table.distance? id := by
  cases step with
  | enter _ | leave | report _ _ _ => rfl
  | declare name => exact (walks_declare st name).frame id List.not_mem_nil
  | define name => exact (walks_mark st name.name true).frame id List.not_mem_nil
  | read name => exact (walks_ifReport _ st _ _ _).frame id List.not_mem_nil
  | refer id' name => exact (walks_refer st id' name).frame id h

/-- The entry of a node stays as it is on a walk that does not refer to the node. -/
theorem walk_frame (steps : List ResolveStep) (st : Resolution) (h : id ∉ referred steps) :
    (st.walk steps).table.distance? id = st.table.distance? id := by
  induction steps generalizing st with
  | nil => rfl
  | cons step steps ih =>
      have hsplit := referred_append [step] steps
      rw [List.singleton_append] at hsplit
      rw [hsplit, List.mem_append, not_or] at h
      rw [walk_cons, ih (st.apply step) h.2, apply_distance? st step h.1]

/-- **When every node is referred to once, a distance is filed under an id without one.** -/
theorem walk_fresh (hnodup : (referred steps).Nodup)
    (hfree : ∀ id ∈ referred steps, st.table.distance? id = none)
    (h : steps = pre ++ .refer id name :: post) : (st.walk pre).table.distance? id = none := by
  subst h
  rw [referred_append, referred] at hnodup hfree
  have hpre : id ∉ referred pre := fun hmem =>
    (List.nodup_append.mp hnodup).2.2 id hmem id List.mem_cons_self rfl
  rw [walk_frame pre st hpre]
  exact hfree id (List.mem_append_right _ List.mem_cons_self)

/-- **The distance filed for a reference is what the table says at the end.** -/
theorem walk_distance? (hnodup : (referred steps).Nodup)
    (hfree : ∀ id ∈ referred steps, st.table.distance? id = none)
    (h : steps = pre ++ .refer id name :: post) :
    (st.walk steps).table.distance? id = (st.walk pre).scopes.findIdx? (·.declares name) := by
  have hfresh := walk_fresh hnodup hfree h
  subst h
  rw [referred_append, referred] at hnodup
  have hpost : id ∉ referred post := (List.nodup_cons.mp (List.nodup_append.mp hnodup).2.1).1
  rw [walk_append, walk_cons, walk_frame post _ hpost]
  show ((st.walk pre).refer id name).table.distance? id = _
  unfold refer
  split
  · rename_i distance hdistance
    rw [DistanceTable.distance?_file, if_pos rfl, hdistance]
  · rename_i hnone
    rw [hfresh, hnone]

end Resolution

end Scriptlet
