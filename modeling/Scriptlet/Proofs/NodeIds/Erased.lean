import Mathlib.Logic.Equiv.Basic
import Scriptlet.Proofs.NodeIds.Interval

/-!
# Trees equal up to node ids

Trees that are equal up to ids have the same number of references, and a map that sends the ids of one, in order, to the
ids of the other sends the tree to the other one.  If the ids of each are pairwise different and new, there is such a map
that keeps different ids apart and leaves the old ids as they are.

* `Reference.Aligned f refs refs' P` — as many references on both sides, and `P` holds if `f` sends the ids of the first
  to the ids of the second.

Principal results: `Stmt.aligned_all` — programs equal up to ids are aligned; `Program.exists_renaming` — programs
equal up to ids are renamings of each other.
-/

set_option autoImplicit false

namespace Scriptlet

/-- As many references on both sides, and a fact that holds if the ids of the first are sent to those of the second. -/
structure Reference.Aligned (f : NodeId → NodeId) (refs refs' : List Reference) (P : Prop) : Prop where
  length : refs.length = refs'.length
  fact : (Reference.ids refs).map f = Reference.ids refs' → P

namespace Reference.Aligned

variable {f : NodeId → NodeId} {refs refs' refs₁ refs₁' : List Reference} {P Q : Prop}

theorem nil (h : P) : Aligned f [] [] P := ⟨rfl, fun _ => h⟩

theorem imp (h : Aligned f refs refs' P) (hPQ : P → Q) : Aligned f refs refs' Q :=
  ⟨h.length, fun hids => hPQ (h.fact hids)⟩

theorem cons {r r' : Reference} (h : Aligned f refs refs' P) :
    Aligned f (r :: refs) (r' :: refs') (f r.id = r'.id ∧ P) := by
  refine ⟨by rw [List.length_cons, List.length_cons, h.length], fun hids => ?_⟩
  injection hids with hid hids
  exact ⟨hid, h.fact hids⟩

theorem append (h : Aligned f refs refs' P) (h₁ : Aligned f refs₁ refs₁' Q) :
    Aligned f (refs ++ refs₁) (refs' ++ refs₁') (P ∧ Q) := by
  refine ⟨by rw [List.length_append, List.length_append, h.length, h₁.length], fun hids => ?_⟩
  rw [Reference.ids_append, Reference.ids_append, List.map_append] at hids
  obtain ⟨hids, hids₁⟩ := List.append_inj hids (by simp [Reference.ids, h.length])
  exact ⟨h.fact hids, h₁.fact hids₁⟩

end Reference.Aligned

open Reference (Aligned)

section Erased

variable {f : NodeId → NodeId}

mutual
theorem Expr.aligned : ∀ {e e' : Expr}, e.eraseIds = e'.eraseIds →
    Aligned f e.references e'.references (e.mapIds f = e')
  | .lit _, e', h => by
      cases e' with
      | lit => exact .nil h
      | _ => cases h
  | .group _, e', h => by
      cases e' with
      | group =>
          injection h with ha
          exact (Expr.aligned ha).imp fun | rfl => rfl
      | _ => cases h
  | .unary _ _, e', h => by
      cases e' with
      | unary =>
          injection h with hop ha
          subst hop
          exact (Expr.aligned ha).imp fun | rfl => rfl
      | _ => cases h
  | .binary _ _ _, e', h => by
      cases e' with
      | binary =>
          injection h with hop ha hb
          subst hop
          exact ((Expr.aligned ha).append (Expr.aligned hb)).imp fun | ⟨rfl, rfl⟩ => rfl
      | _ => cases h
  | .logical _ _ _, e', h => by
      cases e' with
      | logical =>
          injection h with hop ha hb
          subst hop
          exact ((Expr.aligned ha).append (Expr.aligned hb)).imp fun | ⟨rfl, rfl⟩ => rfl
      | _ => cases h
  | .ternary _ _ _, e', h => by
      cases e' with
      | ternary =>
          injection h with ha hb hc
          exact (((Expr.aligned ha).append (Expr.aligned hb)).append (Expr.aligned hc)).imp fun | ⟨⟨rfl, rfl⟩, rfl⟩ => rfl
      | _ => cases h
  | .var _ _, e', h => by
      cases e' with
      | var =>
          injection h with _ hname
          subst hname
          exact (Aligned.cons (.nil trivial)).imp fun ⟨hid, _⟩ => congrArg (Expr.var · _) hid
      | _ => cases h
  | .assign _ _ _, e', h => by
      cases e' with
      | assign =>
          injection h with _ hname ha
          subst hname
          exact (Expr.aligned ha).cons.imp fun | ⟨hid, rfl⟩ => congrArg (Expr.assign · _ _) hid
      | _ => cases h
  | .update _ _ _ _, e', h => by
      cases e' with
      | update =>
          injection h with _ hname hop ha
          subst hname hop
          exact (Expr.aligned ha).cons.imp fun | ⟨hid, rfl⟩ => congrArg (Expr.update · _ _ _) hid
      | _ => cases h
  | .this _ _, e', h => by
      cases e' with
      | this =>
          injection h with _ hline
          subst hline
          exact (Aligned.cons (.nil trivial)).imp fun ⟨hid, _⟩ => congrArg (Expr.this · _) hid
      | _ => cases h
  | .array _, e', h => by
      cases e' with
      | array =>
          injection h with hes
          exact (Expr.aligned_all hes).imp fun | rfl => rfl
      | _ => cases h
  | .index _ _ _, e', h => by
      cases e' with
      | index =>
          injection h with ha hline hb
          subst hline
          exact ((Expr.aligned ha).append (Expr.aligned hb)).imp fun | ⟨rfl, rfl⟩ => rfl
      | _ => cases h
  | .call _ _ _, e', h => by
      cases e' with
      | call =>
          injection h with ha hline hes
          subst hline
          exact ((Expr.aligned ha).append (Expr.aligned_all hes)).imp fun | ⟨rfl, rfl⟩ => rfl
      | _ => cases h
  | .get _ _, e', h => by
      cases e' with
      | get =>
          injection h with ha hname
          subst hname
          exact (Expr.aligned ha).imp fun | rfl => rfl
      | _ => cases h
  | .set _ _ _, e', h => by
      cases e' with
      | set =>
          injection h with ha hname hb
          subst hname
          exact ((Expr.aligned ha).append (Expr.aligned hb)).imp fun | ⟨rfl, rfl⟩ => rfl
      | _ => cases h
theorem Expr.aligned_all : ∀ {xs xs' : List Expr},
    Expr.mapIdsAll (fun _ => 0) xs = Expr.mapIdsAll (fun _ => 0) xs' →
    Aligned f (Expr.referencesAll xs) (Expr.referencesAll xs') (Expr.mapIdsAll f xs = xs')
  | [], xs', h => by
      cases xs' with
      | nil => exact .nil rfl
      | cons => cases h
  | _ :: _, xs', h => by
      cases xs' with
      | nil => cases h
      | cons =>
          injection h with hx hxs
          exact ((Expr.aligned hx).append (Expr.aligned_all hxs)).imp fun | ⟨rfl, rfl⟩ => rfl
end

theorem Expr.aligned_opt {o o' : Option Expr} (h : o.map Expr.eraseIds = o'.map Expr.eraseIds) :
    Aligned f (Expr.referencesOpt o) (Expr.referencesOpt o') (o.map (Expr.mapIds f) = o') := by
  cases o with
  | none =>
      cases o' with
      | none => exact .nil rfl
      | some => cases h
  | some =>
      cases o' with
      | none => cases h
      | some =>
          injection h with he
          exact (Expr.aligned he).imp (congrArg some)

theorem Stmt.mapIds_ifElse (test : Expr) (whenTrue : Stmt) (whenFalse : Option Stmt) :
    (Stmt.ifElse test whenTrue whenFalse).mapIds f =
      .ifElse (test.mapIds f) (whenTrue.mapIds f) (whenFalse.map (Stmt.mapIds f)) := by
  cases whenFalse <;> simp only [Stmt.mapIds, Option.map]

mutual
theorem Stmt.aligned : ∀ {s s' : Stmt}, s.eraseIds = s'.eraseIds →
    Aligned f s.references s'.references (s.mapIds f = s')
  | .expr _, s', h => by
      cases s' with
      | expr =>
          injection h with he
          exact (Expr.aligned he).imp fun | rfl => rfl
      | _ => simp [Stmt.mapIds_ifElse, Stmt.mapIds] at h
  | .print _, s', h => by
      cases s' with
      | print =>
          injection h with he
          exact (Expr.aligned he).imp fun | rfl => rfl
      | _ => simp [Stmt.mapIds_ifElse, Stmt.mapIds] at h
  | .var _ _, s', h => by
      cases s' with
      | var =>
          injection h with hname hinit
          subst hname
          exact (Expr.aligned_opt hinit).imp fun | rfl => rfl
      | _ => simp [Stmt.mapIds_ifElse, Stmt.mapIds] at h
  | .block _, s', h => by
      cases s' with
      | block =>
          injection h with hbody
          exact (Stmt.aligned_all hbody).imp fun | rfl => rfl
      | _ => simp [Stmt.mapIds_ifElse, Stmt.mapIds] at h
  | .ifElse _ _ none, s', h => by
      cases s' with
      | ifElse _ _ whenFalse =>
          cases whenFalse with
          | none =>
              injection h with he ha
              exact ((Expr.aligned he).append (Stmt.aligned ha)).imp fun | ⟨rfl, rfl⟩ => rfl
          | some => simp [Stmt.mapIds] at h
      | _ => simp [Stmt.mapIds] at h
  | .ifElse _ _ (some _), s', h => by
      cases s' with
      | ifElse _ _ whenFalse =>
          cases whenFalse with
          | none => simp [Stmt.mapIds] at h
          | some =>
              injection h with he ha hb
              injection hb with hb
              exact (((Expr.aligned he).append (Stmt.aligned ha)).append (Stmt.aligned hb)).imp fun | ⟨⟨rfl, rfl⟩, rfl⟩ => rfl
      | _ => simp [Stmt.mapIds] at h
  | .whileLoop _ _, s', h => by
      cases s' with
      | whileLoop =>
          injection h with he hbody
          exact ((Expr.aligned he).append (Stmt.aligned hbody)).imp fun | ⟨rfl, rfl⟩ => rfl
      | _ => simp [Stmt.mapIds_ifElse, Stmt.mapIds] at h
  | .function _, s', h => by
      cases s' with
      | function =>
          injection h with hd
          exact (FunctionDecl.aligned hd).imp fun | rfl => rfl
      | _ => simp [Stmt.mapIds_ifElse, Stmt.mapIds] at h
  | .classDecl _ _, s', h => by
      cases s' with
      | classDecl =>
          injection h with hname hds
          subst hname
          exact (FunctionDecl.aligned_all hds).imp fun | rfl => rfl
      | _ => simp [Stmt.mapIds_ifElse, Stmt.mapIds] at h
  | .ret _ _, s', h => by
      cases s' with
      | ret =>
          injection h with hline hvalue
          subst hline
          exact (Expr.aligned_opt hvalue).imp fun | rfl => rfl
      | _ => simp [Stmt.mapIds_ifElse, Stmt.mapIds] at h
/-- **Programs equal up to ids are aligned.** -/
theorem Stmt.aligned_all : ∀ {xs xs' : List Stmt},
    Stmt.mapIdsAll (fun _ => 0) xs = Stmt.mapIdsAll (fun _ => 0) xs' →
    Aligned f (Stmt.referencesAll xs) (Stmt.referencesAll xs') (Stmt.mapIdsAll f xs = xs')
  | [], xs', h => by
      cases xs' with
      | nil => exact .nil rfl
      | cons => cases h
  | _ :: _, xs', h => by
      cases xs' with
      | nil => cases h
      | cons =>
          injection h with hx hxs
          exact ((Stmt.aligned hx).append (Stmt.aligned_all hxs)).imp fun | ⟨rfl, rfl⟩ => rfl
theorem FunctionDecl.aligned : ∀ {d d' : FunctionDecl}, d.mapIds (fun _ => 0) = d'.mapIds (fun _ => 0) →
    Aligned f d.references d'.references (d.mapIds f = d')
  | .mk _ _ _, .mk _ _ _, h => by
      injection h with hname hparams hbody
      subst hname hparams
      exact (Stmt.aligned_all hbody).imp fun | rfl => rfl
theorem FunctionDecl.aligned_all : ∀ {xs xs' : List FunctionDecl},
    FunctionDecl.mapIdsAll (fun _ => 0) xs = FunctionDecl.mapIdsAll (fun _ => 0) xs' →
    Aligned f (FunctionDecl.referencesAll xs) (FunctionDecl.referencesAll xs') (FunctionDecl.mapIdsAll f xs = xs')
  | [], xs', h => by
      cases xs' with
      | nil => exact .nil rfl
      | cons => cases h
  | _ :: _, xs', h => by
      cases xs' with
      | nil => cases h
      | cons =>
          injection h with hx hxs
          exact ((FunctionDecl.aligned hx).append (FunctionDecl.aligned_all hxs)).imp fun | ⟨rfl, rfl⟩ => rfl
end

end Erased

/-! ## Renamings of new ids -/

/-- Lists of pairwise different ids, none of them below `n`, are sent to each other by a permutation that keeps the ids
below `n`. -/
theorem exists_perm_of_nodup {n : Nat} : ∀ {ids ids' : List Nat}, ids.length = ids'.length → ids.Nodup →
    ids'.Nodup → (∀ id ∈ ids, n ≤ id) → (∀ id ∈ ids', n ≤ id) →
    ∃ f : Equiv.Perm Nat, (∀ id, id < n → f id = id) ∧ ids.map f = ids'
  | [], [], _, _, _, _, _ => ⟨Equiv.refl _, fun _ _ => rfl, rfl⟩
  | a :: ids, b :: ids', hlen, hnodup, hnodup', hle, hle' => by
      rw [List.nodup_cons] at hnodup hnodup'
      rw [List.forall_mem_cons] at hle hle'
      obtain ⟨f, hfixed, rfl⟩ :=
        exists_perm_of_nodup (Nat.succ.inj hlen) hnodup.2 hnodup'.2 hle.2 hle'.2
      -- the image of the head is exchanged with the id it should have; neither is below `n` nor the image of another
      have hnew : n ≤ f a := by
        by_contra hlt
        have heq : f (f a) = f a := hfixed _ (by omega)
        have := f.injective heq
        omega
      refine ⟨f.trans (Equiv.swap (f a) b), fun id hid => ?_, ?_⟩
      · rw [Equiv.trans_apply, hfixed id hid]
        exact Equiv.swap_apply_of_ne_of_ne (by omega) (by omega)
      · have htail : ids.map (f.trans (Equiv.swap (f a) b)) = ids.map f := by
          refine List.map_congr_left fun id hid => ?_
          refine Equiv.swap_apply_of_ne_of_ne (fun heq => ?_) fun heq => ?_
          · exact hnodup.1 (f.injective heq ▸ hid)
          · exact hnodup'.1 (heq ▸ List.mem_map_of_mem hid)
        rw [List.map_cons, htail, Equiv.trans_apply, Equiv.swap_apply_left]

/-- **Programs equal up to ids are renamings of each other**, if the ids of each are pairwise different and new. -/
theorem Program.exists_renaming {n m m' : Nat} {p p' : Program} (h : p.eraseIds = p'.eraseIds)
    (hp : Spans n (Reference.ids (Stmt.referencesAll p)) m)
    (hp' : Spans n (Reference.ids (Stmt.referencesAll p')) m') :
    ∃ f : Equiv.Perm NodeId, (∀ id, id < n → f id = id) ∧ Stmt.mapIdsAll f p = p' := by
  have hlen : (Reference.ids (Stmt.referencesAll p)).length = (Reference.ids (Stmt.referencesAll p')).length := by
    rw [Reference.ids, Reference.ids, List.length_map, List.length_map]
    exact (Stmt.aligned_all (f := id) h).length
  obtain ⟨f, hfixed, hids⟩ := exists_perm_of_nodup hlen hp.nodup hp'.nodup (fun id hid => (hp.bounds id hid).1)
    fun id hid => (hp'.bounds id hid).1
  exact ⟨f, hfixed, (Stmt.aligned_all h).fact hids⟩

end Scriptlet
