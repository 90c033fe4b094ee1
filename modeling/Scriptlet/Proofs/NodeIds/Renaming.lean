import Scriptlet.Scope.Resolve
import Scriptlet.Proofs.Scoping.Resolver

/-!
# Renamed node ids

Node ids only connect a reference with its entry in the table of scope distances.

* `Stmt.mapIds_congr` — renamings that agree on the ids of a tree give the same tree.
* `DistanceTable.Renames f T T'` — the table `T'` says about renamed ids what `T` says about the ids.

Principal result: `resolve_mapIds` — resolving a renamed program gives the same errors and a renamed table, if
the renaming keeps different ids apart.
-/

set_option autoImplicit false

namespace Scriptlet

section Congruence

variable {f g : NodeId → NodeId}

mutual
theorem Expr.mapIds_congr : ∀ (e : Expr), (∀ r ∈ e.references, f r.id = g r.id) →
    e.mapIds f = e.mapIds g
  | .lit _, _ => rfl
  | .group inner, h => congrArg Expr.group (inner.mapIds_congr h)
  | .unary _ operand, h => congrArg (Expr.unary _) (operand.mapIds_congr h)
  | .binary _ left right, h | .logical _ left right, h => by
      simp only [Expr.references, List.mem_append] at h
      simp only [Expr.mapIds, left.mapIds_congr fun r hr => h r (.inl hr),
        right.mapIds_congr fun r hr => h r (.inr hr)]
  | .ternary test whenTrue whenFalse, h => by
      simp only [Expr.references, List.mem_append] at h
      simp only [Expr.mapIds, test.mapIds_congr fun r hr => h r (.inl (.inl hr)),
        whenTrue.mapIds_congr fun r hr => h r (.inl (.inr hr)),
        whenFalse.mapIds_congr fun r hr => h r (.inr hr)]
  | .var _ _, h | .this _ _, h => by
      simp only [Expr.references, List.mem_singleton, forall_eq] at h
      simp only [Expr.mapIds, h]
  | .assign _ _ value, h | .update _ _ _ value, h => by
      simp only [Expr.references, List.mem_cons, forall_eq_or_imp] at h
      simp only [Expr.mapIds, h.1, value.mapIds_congr h.2]
  | .array items, h => congrArg Expr.array (Expr.mapIdsAll_congr items h)
  | .index target _ position, h => by
      simp only [Expr.references, List.mem_append] at h
      simp only [Expr.mapIds, target.mapIds_congr fun r hr => h r (.inl hr),
        position.mapIds_congr fun r hr => h r (.inr hr)]
  | .call callee _ args, h => by
      simp only [Expr.references, List.mem_append] at h
      simp only [Expr.mapIds, callee.mapIds_congr fun r hr => h r (.inl hr),
        Expr.mapIdsAll_congr args fun r hr => h r (.inr hr)]
  | .get object _, h => congrArg (Expr.get · _) (object.mapIds_congr h)
  | .set object _ value, h => by
      simp only [Expr.references, List.mem_append] at h
      simp only [Expr.mapIds, object.mapIds_congr fun r hr => h r (.inl hr),
        value.mapIds_congr fun r hr => h r (.inr hr)]
theorem Expr.mapIdsAll_congr : ∀ (es : List Expr), (∀ r ∈ Expr.referencesAll es, f r.id = g r.id) →
    Expr.mapIdsAll f es = Expr.mapIdsAll g es
  | [], _ => rfl
  | e :: es, h => by
      simp only [Expr.referencesAll, List.mem_append] at h
      simp only [Expr.mapIdsAll, e.mapIds_congr fun r hr => h r (.inl hr),
        Expr.mapIdsAll_congr es fun r hr => h r (.inr hr)]
end

theorem Expr.mapIdsOpt_congr {o : Option Expr} (h : ∀ r ∈ Expr.referencesOpt o, f r.id = g r.id) :
    o.map (Expr.mapIds f) = o.map (Expr.mapIds g) := by
  cases o with
  | none => rfl
  | some e => exact congrArg some (e.mapIds_congr h)

mutual
theorem Stmt.mapIds_congr : ∀ (s : Stmt), (∀ r ∈ s.references, f r.id = g r.id) →
    s.mapIds f = s.mapIds g
  | .expr e, h => congrArg Stmt.expr (e.mapIds_congr h)
  | .print e, h => congrArg Stmt.print (e.mapIds_congr h)
  | .var _ _, h => congrArg (Stmt.var _) (Expr.mapIdsOpt_congr h)
  | .block body, h => congrArg Stmt.block (Stmt.mapIdsAll_congr body h)
  | .ifElse test whenTrue none, h => by
      simp only [Stmt.references, List.mem_append] at h
      simp only [Stmt.mapIds, test.mapIds_congr fun r hr => h r (.inl hr),
        whenTrue.mapIds_congr fun r hr => h r (.inr hr)]
  | .ifElse test whenTrue (some whenFalse), h => by
      simp only [Stmt.references, List.mem_append] at h
      simp only [Stmt.mapIds, test.mapIds_congr fun r hr => h r (.inl (.inl hr)),
        whenTrue.mapIds_congr fun r hr => h r (.inl (.inr hr)),
        whenFalse.mapIds_congr fun r hr => h r (.inr hr)]
  | .whileLoop test body, h => by
      simp only [Stmt.references, List.mem_append] at h
      simp only [Stmt.mapIds, test.mapIds_congr fun r hr => h r (.inl hr),
        body.mapIds_congr fun r hr => h r (.inr hr)]
  | .function decl, h => congrArg Stmt.function (decl.mapIds_congr h)
  | .classDecl _ methods, h => congrArg (Stmt.classDecl _) (FunctionDecl.mapIdsAll_congr methods h)
  | .ret _ _, h => congrArg (Stmt.ret _) (Expr.mapIdsOpt_congr h)
theorem Stmt.mapIdsAll_congr : ∀ (ss : List Stmt), (∀ r ∈ Stmt.referencesAll ss, f r.id = g r.id) →
    Stmt.mapIdsAll f ss = Stmt.mapIdsAll g ss
  | [], _ => rfl
  | s :: ss, h => by
      simp only [Stmt.referencesAll, List.mem_append] at h
      simp only [Stmt.mapIdsAll, s.mapIds_congr fun r hr => h r (.inl hr),
        Stmt.mapIdsAll_congr ss fun r hr => h r (.inr hr)]
theorem FunctionDecl.mapIds_congr : ∀ (d : FunctionDecl), (∀ r ∈ d.references, f r.id = g r.id) →
    d.mapIds f = d.mapIds g
  | .mk _ _ body, h => congrArg (FunctionDecl.mk _ _) (Stmt.mapIdsAll_congr body h)
theorem FunctionDecl.mapIdsAll_congr : ∀ (ds : List FunctionDecl),
    (∀ r ∈ FunctionDecl.referencesAll ds, f r.id = g r.id) →
    FunctionDecl.mapIdsAll f ds = FunctionDecl.mapIdsAll g ds
  | [], _ => rfl
  | d :: ds, h => by
      simp only [FunctionDecl.referencesAll, List.mem_append] at h
      simp only [FunctionDecl.mapIdsAll, d.mapIds_congr fun r hr => h r (.inl hr),
        FunctionDecl.mapIdsAll_congr ds fun r hr => h r (.inr hr)]
end

end Congruence

mutual
theorem Expr.mapIds_id : ∀ e : Expr, e.mapIds id = e
  | .lit _ | .var _ _ | .this _ _ => rfl
  | .group inner => congrArg Expr.group inner.mapIds_id
  | .unary _ operand => congrArg (Expr.unary _) operand.mapIds_id
  | .binary _ left right | .logical _ left right => by
      simp only [Expr.mapIds, left.mapIds_id, right.mapIds_id]
  | .ternary test whenTrue whenFalse => by
      simp only [Expr.mapIds, test.mapIds_id, whenTrue.mapIds_id, whenFalse.mapIds_id]
  | .assign _ _ value => congrArg (Expr.assign _ _) value.mapIds_id
  | .update _ _ _ operand => congrArg (Expr.update _ _ _) operand.mapIds_id
  | .array items => congrArg Expr.array (Expr.mapIdsAll_id items)
  | .index target _ position => by simp only [Expr.mapIds, target.mapIds_id, position.mapIds_id]
  | .call callee _ args => by simp only [Expr.mapIds, callee.mapIds_id, Expr.mapIdsAll_id args]
  | .get object _ => congrArg (Expr.get · _) object.mapIds_id
  | .set object _ value => by simp only [Expr.mapIds, object.mapIds_id, value.mapIds_id]
theorem Expr.mapIdsAll_id : ∀ es : List Expr, Expr.mapIdsAll id es = es
  | [] => rfl
  | e :: es => by rw [Expr.mapIdsAll, e.mapIds_id, Expr.mapIdsAll_id es]
end

theorem Expr.mapIdsOpt_id (o : Option Expr) : o.map (Expr.mapIds id) = o := by
  cases o with
  | none => rfl
  | some e => exact congrArg some e.mapIds_id

mutual
theorem Stmt.mapIds_id : ∀ s : Stmt, s.mapIds id = s
  | .expr e => congrArg Stmt.expr e.mapIds_id
  | .print e => congrArg Stmt.print e.mapIds_id
  | .var _ init => congrArg (Stmt.var _) (Expr.mapIdsOpt_id init)
  | .block body => congrArg Stmt.block (Stmt.mapIdsAll_id body)
  | .ifElse test whenTrue none => by simp only [Stmt.mapIds, test.mapIds_id, whenTrue.mapIds_id]
  | .ifElse test whenTrue (some whenFalse) => by
      simp only [Stmt.mapIds, test.mapIds_id, whenTrue.mapIds_id, whenFalse.mapIds_id]
  | .whileLoop test body => by simp only [Stmt.mapIds, test.mapIds_id, body.mapIds_id]
  | .function decl => congrArg Stmt.function decl.mapIds_id
  | .classDecl _ methods => congrArg (Stmt.classDecl _) (FunctionDecl.mapIdsAll_id methods)
  | .ret _ value => congrArg (Stmt.ret _) (Expr.mapIdsOpt_id value)
theorem Stmt.mapIdsAll_id : ∀ ss : List Stmt, Stmt.mapIdsAll id ss = ss
  | [] => rfl
  | s :: ss => by rw [Stmt.mapIdsAll, s.mapIds_id, Stmt.mapIdsAll_id ss]
theorem FunctionDecl.mapIds_id : ∀ d : FunctionDecl, d.mapIds id = d
  | .mk _ _ body => congrArg (FunctionDecl.mk _ _) (Stmt.mapIdsAll_id body)
theorem FunctionDecl.mapIdsAll_id : ∀ ds : List FunctionDecl, FunctionDecl.mapIdsAll id ds = ds
  | [] => rfl
  | d :: ds => by rw [FunctionDecl.mapIdsAll, d.mapIds_id, FunctionDecl.mapIdsAll_id ds]
end

/-- A renaming that fixes the ids of a function fixes the function. -/
theorem FunctionDecl.mapIds_of_fixed {f : NodeId → NodeId} {d : FunctionDecl}
    (h : ∀ r ∈ d.references, f r.id = r.id) : d.mapIds f = d :=
  (d.mapIds_congr h).trans d.mapIds_id

/-! ## Resolving -/

/-- The second table says about renamed ids what the first says about the ids. -/
def DistanceTable.Renames (f : NodeId → NodeId) (T T' : DistanceTable) : Prop :=
  ∀ id, T'.distance? (f id) = T.distance? id

/-- States of the walk that differ only in the names of ids. -/
structure Resolution.Renames (f : NodeId → NodeId) (st st' : Resolution) : Prop where
  scopes : st'.scopes = st.scopes
  errors : st'.errors = st.errors
  table : DistanceTable.Renames f st.table st'.table

section Resolving

variable {f : NodeId → NodeId} {st st' : Resolution}

theorem DistanceTable.Renames.file {T T' : DistanceTable} (h : DistanceTable.Renames f T T')
    (hf : ∀ a b, f a = f b → a = b) (id : NodeId) (distance : Nat) :
    DistanceTable.Renames f (T.file id distance) (T'.file (f id) distance) := by
  intro key
  rw [DistanceTable.distance?_file, DistanceTable.distance?_file, h key]
  by_cases hkey : id = key
  · rw [if_pos hkey, if_pos (congrArg f hkey)]
  · rw [if_neg hkey, if_neg fun heq => hkey (hf _ _ heq)]

namespace Resolution.Renames

theorem report (h : Renames f st st') (line : Nat) (lexeme : String) (fault : StaticFault) :
    Renames f (st.report line lexeme fault) (st'.report line lexeme fault) :=
  ⟨h.scopes, by simp only [Resolution.report, h.errors], h.table⟩

theorem ifReport (h : Renames f st st') (c : Prop) [Decidable c] (line : Nat) (lexeme : String)
    (fault : StaticFault) : Renames f (if c then st.report line lexeme fault else st)
      (if c then st'.report line lexeme fault else st') := by
  split
  · exact h.report line lexeme fault
  · exact h

theorem enter (h : Renames f st st') (scope : NameScope) : Renames f (st.enter scope) (st'.enter scope) :=
  ⟨by simp only [Resolution.enter, h.scopes], h.errors, h.table⟩

theorem leave (h : Renames f st st') : Renames f st.leave st'.leave :=
  ⟨by simp only [Resolution.leave, h.scopes], h.errors, h.table⟩

theorem mark (h : Renames f st st') (name : String) (complete : Bool) :
    Renames f (st.mark name complete) (st'.mark name complete) := by
  unfold Resolution.mark
  rw [h.scopes]
  split
  · exact h
  · exact ⟨rfl, h.errors, h.table⟩

theorem declare (h : Renames f st st') (name : Ident) : Renames f (st.declare name) (st'.declare name) := by
  unfold Resolution.declare
  rw [h.scopes]
  exact (h.ifReport _ _ _ _).mark _ _

theorem introduce (h : Renames f st st') (name : Ident) :
    Renames f (st.introduce name) (st'.introduce name) :=
  (h.declare name).mark _ _

theorem parameters (h : Renames f st st') (params : List Ident) :
    Renames f (params.foldl Resolution.introduce st) (params.foldl Resolution.introduce st') := by
  induction params generalizing st st' with
  | nil => exact h
  | cons param params ih => exact ih (h.introduce param)

theorem refer (h : Renames f st st') (hf : ∀ a b, f a = f b → a = b) (id : NodeId) (name : String) :
    Renames f (st.refer id name) (st'.refer (f id) name) := by
  unfold Resolution.refer
  rw [h.scopes]
  split
  · exact ⟨rfl, h.errors, h.table.file hf id _⟩
  · exact h

theorem checkReturn (h : Renames f st st') (site : Site) (line : Nat) (hasValue : Bool) :
    Renames f (st.checkReturn site line hasValue) (st'.checkReturn site line hasValue) := by
  unfold Resolution.checkReturn
  exact (h.ifReport _ _ _ _).ifReport _ _ _ _

end Resolution.Renames

mutual
theorem Expr.resolve_mapIds (hf : ∀ a b, f a = f b → a = b) (site : Site) :
    ∀ (e : Expr) {st st' : Resolution}, Resolution.Renames f st st' →
      Resolution.Renames f (e.resolve site st) ((e.mapIds f).resolve site st')
  | .lit _, _, _, h => h
  | .group inner, _, _, h => inner.resolve_mapIds hf site h
  | .unary _ operand, _, _, h => operand.resolve_mapIds hf site h
  | .binary _ left right, _, _, h | .logical _ left right, _, _, h =>
      right.resolve_mapIds hf site (left.resolve_mapIds hf site h)
  | .ternary test whenTrue whenFalse, _, _, h =>
      whenFalse.resolve_mapIds hf site
        (whenTrue.resolve_mapIds hf site (test.resolve_mapIds hf site h))
  | .var id name, st, st', h => by
      have hpending : st'.isPending name.name = st.isPending name.name := by
        simp only [Resolution.isPending, h.scopes]
      simp only [Expr.mapIds, Expr.resolve, hpending]
      exact (h.ifReport _ _ _ _).refer hf id name.name
  | .assign id name value, _, _, h => (value.resolve_mapIds hf site h).refer hf id name.name
  | .update id name _ operand, _, _, h => (operand.resolve_mapIds hf site h).refer hf id name.name
  | .this id line, _, _, h => by
      simp only [Expr.mapIds, Expr.resolve]
      split
      · exact h.refer hf id thisName
      · exact h.report _ _ _
  | .array items, _, _, h => Expr.resolveAll_mapIds hf site items h
  | .index target _ position, _, _, h =>
      position.resolve_mapIds hf site (target.resolve_mapIds hf site h)
  | .call callee _ args, _, _, h => Expr.resolveAll_mapIds hf site args (callee.resolve_mapIds hf site h)
  | .get object _, _, _, h => object.resolve_mapIds hf site h
  | .set object _ value, _, _, h => object.resolve_mapIds hf site (value.resolve_mapIds hf site h)
theorem Expr.resolveAll_mapIds (hf : ∀ a b, f a = f b → a = b) (site : Site) :
    ∀ (es : List Expr) {st st' : Resolution}, Resolution.Renames f st st' →
      Resolution.Renames f (Expr.resolveAll site es st) (Expr.resolveAll site (Expr.mapIdsAll f es) st')
  | [], _, _, h => h
  | e :: es, _, _, h => Expr.resolveAll_mapIds hf site es (e.resolve_mapIds hf site h)
end

mutual
theorem Stmt.resolve_mapIds (hf : ∀ a b, f a = f b → a = b) (site : Site) :
    ∀ (s : Stmt) {st st' : Resolution}, Resolution.Renames f st st' →
      Resolution.Renames f (s.resolve site st) ((s.mapIds f).resolve site st')
  | .expr e, _, _, h | .print e, _, _, h => e.resolve_mapIds hf site h
  | .var name none, _, _, h => h.introduce name
  | .var name (some init), _, _, h => (init.resolve_mapIds hf site (h.declare name)).mark _ _
  | .block body, _, _, h => (Stmt.resolveAll_mapIds hf site body (h.enter [])).leave
  | .ifElse test whenTrue none, _, _, h =>
      whenTrue.resolve_mapIds hf site (test.resolve_mapIds hf site h)
  | .ifElse test whenTrue (some whenFalse), _, _, h =>
      whenFalse.resolve_mapIds hf site
        (whenTrue.resolve_mapIds hf site (test.resolve_mapIds hf site h))
  | .whileLoop test body, _, _, h => body.resolve_mapIds hf site (test.resolve_mapIds hf site h)
  | .function decl, _, _, h => by
      simp only [Stmt.mapIds, Stmt.resolve, FunctionDecl.name_mapIds]
      exact decl.resolve_mapIds hf _ (h.introduce decl.name)
  | .classDecl name methods, _, _, h =>
      (FunctionDecl.resolveMethods_mapIds hf methods ((h.introduce name).enter _)).leave
  | .ret _ none, _, _, h => h.checkReturn _ _ _
  | .ret _ (some value), _, _, h => value.resolve_mapIds hf site (h.checkReturn _ _ _)
theorem Stmt.resolveAll_mapIds (hf : ∀ a b, f a = f b → a = b) (site : Site) :
    ∀ (ss : List Stmt) {st st' : Resolution}, Resolution.Renames f st st' →
      Resolution.Renames f (Stmt.resolveAll site ss st) (Stmt.resolveAll site (Stmt.mapIdsAll f ss) st')
  | [], _, _, h => h
  | s :: ss, _, _, h => Stmt.resolveAll_mapIds hf site ss (s.resolve_mapIds hf site h)
theorem FunctionDecl.resolve_mapIds (hf : ∀ a b, f a = f b → a = b) (site : Site) :
    ∀ (d : FunctionDecl) {st st' : Resolution}, Resolution.Renames f st st' →
      Resolution.Renames f (d.resolve site st) ((d.mapIds f).resolve site st')
  | .mk _ params body, _, _, h =>
      (Stmt.resolveAll_mapIds hf site body ((h.enter []).parameters params)).leave
theorem FunctionDecl.resolveMethods_mapIds (hf : ∀ a b, f a = f b → a = b) :
    ∀ (ms : List FunctionDecl) {st st' : Resolution}, Resolution.Renames f st st' →
      Resolution.Renames f (FunctionDecl.resolveMethods ms st)
        (FunctionDecl.resolveMethods (FunctionDecl.mapIdsAll f ms) st')
  | [], _, _, h => h
  | m :: ms, _, _, h => by
      simp only [FunctionDecl.mapIdsAll, FunctionDecl.resolveMethods, FunctionDecl.name_mapIds]
      exact FunctionDecl.resolveMethods_mapIds hf ms (m.resolve_mapIds hf _ h)
end

/-- **A renamed program has the same static errors and a renamed table.** -/
theorem resolve_mapIds {T T' : DistanceTable} (hf : ∀ a b, f a = f b → a = b)
    (hT : DistanceTable.Renames f T T') (p : Program) :
    (resolve T' (Stmt.mapIdsAll f p)).errors = (resolve T p).errors ∧
      DistanceTable.Renames f (resolve T p).table (resolve T' (Stmt.mapIdsAll f p)).table := by
  have h : Resolution.Renames f ⟨[], T, []⟩ ⟨[], T', []⟩ := ⟨rfl, rfl, hT⟩
  have h' := Stmt.resolveAll_mapIds hf ⟨.none, false⟩ p h
  exact ⟨h'.errors, h'.table⟩

end Resolving

end Scriptlet
