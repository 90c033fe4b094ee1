import Scriptlet.Proofs.NodeIds.Renaming
import Scriptlet.Proofs.Scoping.StaticRules

/-!
# Shifted distances

A tree may be resolved twice, as nodes of its own each time, in surroundings of which the first have some more scopes
than the second.  The scopes that only the first have declare nothing, so the two lead to the same declarations, and
the distances differ by the number of these scopes on the way.

* `Shift` — for each scope outward, whether it is in both surroundings; those beyond are the same.
* `Shift.Leads σ d d'` — the distances `d` and `d'` lead to the same scope.
* `Stmt.Shifted T T' f σ s` — the entries that `T` has for the references of `s`, and for those of `s` with its ids renamed
  by `f`, lead to the same scopes, and only scopes that are in both surroundings are declared in.
* `DistanceTable.Addresses T f occurs` — the entries for renamed ids are lexical addresses.

Principal results: `Stmt.shifted` — lexical addresses in aligned surroundings are shifted; `Stmt.shifted_id` — without a
renaming, nothing is shifted.
-/

set_option autoImplicit false

namespace Scriptlet

/-- For each scope outward, whether both sides have it or only the first. -/
abbrev Shift := List Bool

/-- Distances on the two sides that lead to the same scope. -/
inductive Shift.Leads : Shift → Nat → Nat → Prop
  | beyond (d : Nat) : Leads [] d d
  | here (σ : Shift) : Leads (true :: σ) 0 0
  | both {σ : Shift} {d d' : Nat} : Leads σ d d' → Leads (true :: σ) (d + 1) (d' + 1)
  | extra {σ : Shift} {d d' : Nat} : Leads σ d d' → Leads (false :: σ) (d + 1) d'

/-- The innermost scope is on both sides. -/
def Shift.Open (σ : Shift) : Prop := σ.head? ≠ some false

theorem Shift.open_both (σ : Shift) : Shift.Open (true :: σ) := nofun

/-- The scope at a distance on both sides, if all scopes are on both. -/
theorem Shift.Leads.same {σ : Shift} (hσ : ∀ b ∈ σ, b = true) : ∀ d, σ.Leads d d := by
  induction σ with
  | nil => exact .beyond
  | cons b σ ih =>
      obtain rfl := hσ b List.mem_cons_self
      intro d
      cases d with
      | zero => exact .here σ
      | succ d => exact .both (ih (fun b hb => hσ b (List.mem_cons_of_mem _ hb)) d)

/-- The entries for an id and for the renamed id lead to the same scope; or there is none for either. -/
def Shift.Refers (T T' : DistanceTable) (f : NodeId → NodeId) (σ : Shift) (id : NodeId) : Prop :=
  Option.Rel σ.Leads (T.distance? id) (T'.distance? (f id))

/-- The same for the ids of references. -/
def Shift.RefersAll (T T' : DistanceTable) (f : NodeId → NodeId) (σ : Shift) (refs : List Reference) : Prop :=
  ∀ r ∈ refs, σ.Refers T T' f r.id

mutual
/-- All references of a statement are shifted, and it declares nothing in a scope of one side only. -/
def Stmt.Shifted (T T' : DistanceTable) (f : NodeId → NodeId) (σ : Shift) : Stmt → Prop
  | .expr e => σ.RefersAll T T' f e.references
  | .print e => σ.RefersAll T T' f e.references
  | .var _ init => σ.Open ∧ σ.RefersAll T T' f (Expr.referencesOpt init)
  | .block body => Stmt.ShiftedAll T T' f (true :: σ) body
  | .ifElse test whenTrue none => σ.RefersAll T T' f test.references ∧ whenTrue.Shifted T T' f σ
  | .ifElse test whenTrue (some whenFalse) =>
      σ.RefersAll T T' f test.references ∧ whenTrue.Shifted T T' f σ ∧ whenFalse.Shifted T T' f σ
  | .whileLoop test body => σ.RefersAll T T' f test.references ∧ body.Shifted T T' f σ
  | .function decl => σ.Open ∧ decl.Shifted T T' f σ
  | .classDecl _ methods => σ.Open ∧ FunctionDecl.ShiftedAll T T' f (true :: σ) methods
  | .ret _ value => σ.RefersAll T T' f (Expr.referencesOpt value)
/-- Several statements in the same scope. -/
def Stmt.ShiftedAll (T T' : DistanceTable) (f : NodeId → NodeId) (σ : Shift) : List Stmt → Prop
  | [] => True
  | s :: rest => s.Shifted T T' f σ ∧ Stmt.ShiftedAll T T' f σ rest
/-- The scopes are those around the function; its parameters have a scope of their own. -/
def FunctionDecl.Shifted (T T' : DistanceTable) (f : NodeId → NodeId) (σ : Shift) : FunctionDecl → Prop
  | .mk _ _ body => Stmt.ShiftedAll T T' f (true :: σ) body
/-- Several functions in the same scope. -/
def FunctionDecl.ShiftedAll (T T' : DistanceTable) (f : NodeId → NodeId) (σ : Shift) : List FunctionDecl → Prop
  | [] => True
  | d :: rest => d.Shifted T T' f σ ∧ FunctionDecl.ShiftedAll T T' f σ rest
end

section Shifted

variable {T T' : DistanceTable} {f : NodeId → NodeId} {σ : Shift} {refs refs' : List Reference}

theorem Shift.RefersAll.left (h : σ.RefersAll T T' f (refs ++ refs')) : σ.RefersAll T T' f refs :=
  fun r hr => h r (List.mem_append_left _ hr)

theorem Shift.RefersAll.right (h : σ.RefersAll T T' f (refs ++ refs')) : σ.RefersAll T T' f refs' :=
  fun r hr => h r (List.mem_append_right _ hr)

theorem Shift.RefersAll.head {r : Reference} (h : σ.RefersAll T T' f (r :: refs)) : σ.Refers T T' f r.id :=
  h r List.mem_cons_self

theorem Shift.RefersAll.tail {r : Reference} (h : σ.RefersAll T T' f (r :: refs)) : σ.RefersAll T T' f refs :=
  fun r hr => h r (List.mem_cons_of_mem _ hr)

theorem FunctionDecl.Shifted.body : ∀ {d : FunctionDecl}, d.Shifted T T' f σ → Stmt.ShiftedAll T T' f (true :: σ) d.body
  | .mk _ _ _, h => h

end Shifted

/-! ## Trees that are resolved once -/

/-- The tables have the same entries for references. -/
def DistanceTable.Agrees (T T' : DistanceTable) (refs : List Reference) : Prop :=
  ∀ r ∈ refs, T'.distance? r.id = T.distance? r.id

section Same

variable {T T' : DistanceTable} {refs refs' : List Reference}

theorem DistanceTable.Agrees.left (h : T.Agrees T' (refs ++ refs')) : T.Agrees T' refs :=
  fun r hr => h r (List.mem_append_left _ hr)

theorem DistanceTable.Agrees.right (h : T.Agrees T' (refs ++ refs')) : T.Agrees T' refs' :=
  fun r hr => h r (List.mem_append_right _ hr)

theorem Shift.refersAll_id {σ : Shift} (hσ : ∀ b ∈ σ, b = true) (h : T.Agrees T' refs) : σ.RefersAll T T' id refs := by
  intro r hr
  show Option.Rel σ.Leads (T.distance? r.id) (T'.distance? r.id)
  rw [h r hr]
  cases T.distance? r.id with
  | none => exact .none
  | some d => exact .some (.same hσ d)

theorem Shift.open_of_both {σ : Shift} (hσ : ∀ b ∈ σ, b = true) : σ.Open := by
  cases σ with
  | nil => exact nofun
  | cons b σ =>
      obtain rfl := hσ b List.mem_cons_self
      exact Shift.open_both σ

theorem Shift.forall_both {σ : Shift} (hσ : ∀ b ∈ σ, b = true) : ∀ b ∈ true :: σ, b = true :=
  List.forall_mem_cons.mpr ⟨rfl, hσ⟩

mutual
/-- Without a renaming, and without scopes of one side only, nothing is shifted. -/
theorem Stmt.shifted_id : ∀ {s : Stmt} {σ : Shift}, (∀ b ∈ σ, b = true) → T.Agrees T' s.references →
    s.Shifted T T' id σ
  | .expr _, _, hσ, h => Shift.refersAll_id hσ h
  | .print _, _, hσ, h => Shift.refersAll_id hσ h
  | .var _ _, _, hσ, h => ⟨Shift.open_of_both hσ, Shift.refersAll_id hσ h⟩
  | .block _, _, hσ, h => Stmt.shiftedAll_id (Shift.forall_both hσ) h
  | .ifElse _ _ none, _, hσ, h => ⟨Shift.refersAll_id hσ h.left, Stmt.shifted_id hσ h.right⟩
  | .ifElse _ _ (some _), _, hσ, h =>
      ⟨Shift.refersAll_id hσ h.left.left, Stmt.shifted_id hσ h.left.right, Stmt.shifted_id hσ h.right⟩
  | .whileLoop _ _, _, hσ, h => ⟨Shift.refersAll_id hσ h.left, Stmt.shifted_id hσ h.right⟩
  | .function _, _, hσ, h => ⟨Shift.open_of_both hσ, FunctionDecl.shifted_id hσ h⟩
  | .classDecl _ _, _, hσ, h => ⟨Shift.open_of_both hσ, FunctionDecl.shiftedAll_id (Shift.forall_both hσ) h⟩
  | .ret _ _, _, hσ, h => Shift.refersAll_id hσ h
theorem Stmt.shiftedAll_id : ∀ {ss : List Stmt} {σ : Shift}, (∀ b ∈ σ, b = true) →
    T.Agrees T' (Stmt.referencesAll ss) → Stmt.ShiftedAll T T' id σ ss
  | [], _, _, _ => trivial
  | _ :: _, _, hσ, h => ⟨Stmt.shifted_id hσ h.left, Stmt.shiftedAll_id hσ h.right⟩
theorem FunctionDecl.shifted_id : ∀ {d : FunctionDecl} {σ : Shift}, (∀ b ∈ σ, b = true) →
    T.Agrees T' d.references → d.Shifted T T' id σ
  | .mk _ _ _, _, hσ, h => Stmt.shiftedAll_id (Shift.forall_both hσ) h
theorem FunctionDecl.shiftedAll_id : ∀ {ds : List FunctionDecl} {σ : Shift}, (∀ b ∈ σ, b = true) →
    T.Agrees T' (FunctionDecl.referencesAll ds) → FunctionDecl.ShiftedAll T T' id σ ds
  | [], _, _, _ => trivial
  | _ :: _, _, hσ, h => ⟨FunctionDecl.shifted_id hσ h.left, FunctionDecl.shiftedAll_id hσ h.right⟩
end

end Same

/-! ## Aligned surroundings -/

/-- Surroundings that differ by scopes of the first that declare nothing. -/
inductive Surroundings.Aligned : Shift → Surroundings → Surroundings → Prop
  | same (Γ : Surroundings) : Aligned [] Γ Γ
  | both {σ : Shift} {Γ Γ' : Surroundings} (enclosure : Enclosure) : Aligned σ Γ Γ' →
      Aligned (true :: σ) (enclosure :: Γ) (enclosure :: Γ')
  | extra {σ : Shift} {Γ Γ' : Surroundings} (kind : EnclosureKind) : Aligned σ Γ Γ' →
      Aligned (false :: σ) (⟨kind, []⟩ :: Γ) Γ'

namespace Surroundings.Aligned

variable {σ : Shift} {Γ Γ' : Surroundings}

/-- Declaring the same names; nothing is declared in a scope of one side only. -/
theorem declare (h : Aligned σ Γ Γ') {names : List String} (hnames : σ.Open ∨ names = []) :
    Aligned σ (Γ.declare names) (Γ'.declare names) := by
  rcases hnames with hopen | rfl
  · cases h with
    | same => exact .same _
    | both enclosure h => exact .both _ h
    | extra => exact absurd rfl hopen
  · rwa [declare_nil, declare_nil]

/-- The nearest declaration on the first side is that on the second. -/
theorem isNearest (h : Aligned σ Γ Γ') {name : String} {d : Nat} (hd : Γ.IsNearest name d) :
    ∃ d', Γ'.IsNearest name d' ∧ σ.Leads d d' := by
  induction h generalizing d with
  | same Γ => exact ⟨d, hd, .beyond d⟩
  | both enclosure h ih =>
      cases d with
      | zero => exact ⟨0, isNearest_zero.mpr (isNearest_zero.mp hd), .here _⟩
      | succ d =>
          obtain ⟨hnot, hd⟩ := isNearest_succ.mp hd
          obtain ⟨d', hd', hleads⟩ := ih hd
          exact ⟨d' + 1, isNearest_succ.mpr ⟨hnot, hd'⟩, .both hleads⟩
  | extra kind h ih =>
      cases d with
      | zero => cases isNearest_zero.mp hd
      | succ d =>
          obtain ⟨d', hd', hleads⟩ := ih (isNearest_succ.mp hd).2
          exact ⟨d', hd', .extra hleads⟩

/-- The nearest declaration on the second side is that on the first. -/
theorem isNearest_second (h : Aligned σ Γ Γ') {name : String} {d' : Nat} (hd' : Γ'.IsNearest name d') :
    ∃ d, Γ.IsNearest name d := by
  induction h generalizing d' with
  | same Γ => exact ⟨d', hd'⟩
  | both enclosure h ih =>
      cases d' with
      | zero => exact ⟨0, isNearest_zero.mpr (isNearest_zero.mp hd')⟩
      | succ d' =>
          obtain ⟨hnot, hd'⟩ := isNearest_succ.mp hd'
          obtain ⟨d, hd⟩ := ih hd'
          exact ⟨d + 1, isNearest_succ.mpr ⟨hnot, hd⟩⟩
  | extra kind h ih =>
      obtain ⟨d, hd⟩ := ih hd'
      exact ⟨d + 1, isNearest_succ.mpr ⟨List.not_mem_nil, hd⟩⟩

end Surroundings.Aligned

/-! ## Lexical addresses -/

/-- The entries for the renamed ids of references are their lexical addresses, wherever they occur. -/
structure DistanceTable.Addresses (T : DistanceTable) (f : NodeId → NodeId)
    (occurs : Surroundings → Construct → Prop) : Prop where
  nearest : ∀ {Δ : Surroundings} {node : Expr} {r : Reference}, occurs Δ (.expr node) → node.reference? = some r →
    ∀ d, T.distance? (f r.id) = some d ↔ Δ.IsNearest r.name d

section Addresses

variable {T T' : DistanceTable} {f : NodeId → NodeId}

theorem DistanceTable.Addresses.mono {occurs occurs' : Surroundings → Construct → Prop} (h : T.Addresses f occurs)
    (hsub : ∀ {Δ c}, occurs' Δ c → occurs Δ c) : T.Addresses f occurs' :=
  ⟨fun hc => h.nearest (hsub hc)⟩

/-- The references of an expression. -/
theorem DistanceTable.Addresses.refers {occurs occurs' : Surroundings → Construct → Prop} (h : T.Addresses id occurs)
    (h' : T'.Addresses f occurs') {σ : Shift} {Γ Γ' : Surroundings} (hΓ : Surroundings.Aligned σ Γ Γ') {e : Expr}
    (hoccurs : ∀ node, e.Contains node → occurs Γ (.expr node))
    (hoccurs' : ∀ node, e.Contains node → occurs' Γ' (.expr node)) : σ.RefersAll T T' f e.references := by
  intro r hr
  obtain ⟨node, hnode, href⟩ := e.contains_of_mem_references hr
  have hfirst : ∀ d, T.distance? r.id = some d ↔ Γ.IsNearest r.name d := h.nearest (hoccurs node hnode) href
  have hsecond := h'.nearest (hoccurs' node hnode) href
  unfold Shift.Refers
  cases hd : T.distance? r.id with
  | some d =>
      obtain ⟨d', hd', hleads⟩ := hΓ.isNearest ((hfirst d).mp hd)
      rw [(hsecond d').mpr hd']
      exact .some hleads
  | none =>
      cases hd' : T'.distance? (f r.id) with
      | none => exact .none
      | some d' =>
          obtain ⟨d, hnearest⟩ := hΓ.isNearest_second ((hsecond d').mp hd')
          rw [(hfirst d).mpr hnearest] at hd
          cases hd

mutual
/-- **A statement with lexical addresses in aligned surroundings is shifted.**  In a scope of one side only, it must not
declare a name. -/
theorem Stmt.shifted : ∀ (s : Stmt) {σ : Shift} {Γ Γ' : Surroundings}, Surroundings.Aligned σ Γ Γ' →
    (σ.Open ∨ s.names = []) → T.Addresses id (Stmt.At Γ s) → T'.Addresses f (Stmt.At Γ' s) → s.Shifted T T' f σ
  | .expr _, _, _, _, hΓ, _, h, h' => h.refers h' hΓ (fun _ => .expr) fun _ => .expr
  | .print _, _, _, _, hΓ, _, h, h' => h.refers h' hΓ (fun _ => .print) fun _ => .print
  | .var _ none, _, _, _, _, hopen, _, _ => ⟨hopen.resolve_right nofun, nofun⟩
  | .var _ (some _), _, _, _, hΓ, hopen, h, h' =>
      ⟨hopen.resolve_right nofun, h.refers h' (hΓ.declare (.inl (hopen.resolve_right nofun))) (fun _ => .init)
        fun _ => .init⟩
  | .ret _ none, _, _, _, _, _, _, _ => nofun
  | .ret _ (some _), _, _, _, hΓ, _, h, h' => h.refers h' hΓ (fun _ => .value) fun _ => .value
  | .block body, σ, Γ, Γ', hΓ, _, h, h' => by
      refine Stmt.shiftedAll body (hΓ.both ⟨.block, []⟩) σ.open_both (h.mono ?_) (h'.mono ?_)
      all_goals
        rintro Δ c ⟨before, s, after, rfl, hc⟩
        exact .block hc
  | .ifElse test whenTrue none, _, _, _, hΓ, hopen, h, h' =>
      ⟨h.refers h' hΓ (fun _ => .ifTest) fun _ => .ifTest,
        whenTrue.shifted hΓ hopen (h.mono .ifTrue) (h'.mono .ifTrue)⟩
  | .ifElse test whenTrue (some whenFalse), σ, Γ, Γ', hΓ, hopen, h, h' => by
      have hnames : (Stmt.ifElse test whenTrue (some whenFalse)).names = whenTrue.names ++ whenFalse.names := by
        simp [Stmt.names, Stmt.declared]
      rw [hnames, List.append_eq_nil_iff] at hopen
      have htrue : σ.Open ∨ whenTrue.names = [] := hopen.imp_right And.left
      have hfalse : σ.Open ∨ whenFalse.names = [] := hopen.imp_right And.right
      exact ⟨h.refers h' hΓ (fun _ => .ifTest) fun _ => .ifTest,
        whenTrue.shifted hΓ htrue (h.mono .ifTrue) (h'.mono .ifTrue),
        whenFalse.shifted (hΓ.declare htrue) hfalse (h.mono .ifFalse) (h'.mono .ifFalse)⟩
  | .whileLoop _ body, _, _, _, hΓ, hopen, h, h' =>
      ⟨h.refers h' hΓ (fun _ => .whileTest) fun _ => .whileTest,
        body.shifted hΓ hopen (h.mono .whileBody) (h'.mono .whileBody)⟩
  | .function (.mk name params body), σ, Γ, Γ', hΓ, hopen, h, h' => by
      have hopen : σ.Open := hopen.resolve_right nofun
      have hΓ₁ : Surroundings.Aligned σ (Γ.declare [name.name]) (Γ'.declare [name.name]) := hΓ.declare (.inl hopen)
      refine ⟨hopen, Stmt.shiftedAll body (hΓ₁.both ⟨.function, params.map Ident.name⟩) σ.open_both (h.mono ?_)
        (h'.mono ?_)⟩
      all_goals
        rintro Δ c ⟨before, s, after, rfl, hc⟩
        exact .function hc
  | .classDecl name methods, σ, Γ, Γ', hΓ, hopen, h, h' => by
      have hopen : σ.Open := hopen.resolve_right nofun
      have hΓ₁ : Surroundings.Aligned σ (Γ.declare [name.name]) (Γ'.declare [name.name]) := hΓ.declare (.inl hopen)
      refine ⟨hopen, FunctionDecl.shiftedMethods methods hΓ₁ (h.mono ?_) (h'.mono ?_)⟩
      all_goals
        rintro Δ c ⟨method, params, _, hmem, before, s, after, rfl, hc⟩
        exact .method hmem hc
theorem Stmt.shiftedAll : ∀ (ss : List Stmt) {σ : Shift} {Γ Γ' : Surroundings}, Surroundings.Aligned σ Γ Γ' →
    σ.Open → T.Addresses id (Stmt.AtAll Γ ss) → T'.Addresses f (Stmt.AtAll Γ' ss) → Stmt.ShiftedAll T T' f σ ss
  | [], _, _, _, _, _, _, _ => trivial
  | s :: ss, σ, Γ, Γ', hΓ, hopen, h, h' => by
      have hhead : ∀ {Γ Δ : Surroundings} {c : Construct}, Stmt.At Γ s Δ c → Stmt.AtAll Γ (s :: ss) Δ c :=
        fun {Γ _ _} hc => ⟨[], s, ss, rfl, (Γ.declare_nil).symm ▸ hc⟩
      have htail : ∀ {Γ Δ : Surroundings} {c : Construct}, Stmt.AtAll (Γ.declare s.names) ss Δ c →
          Stmt.AtAll Γ (s :: ss) Δ c := by
        rintro Γ Δ c ⟨before, s', after, rfl, hc⟩
        refine ⟨s :: before, s', after, rfl, ?_⟩
        rwa [Stmt.namesAll_cons, Surroundings.declare_append]
      exact ⟨s.shifted hΓ (.inl hopen) (h.mono hhead) (h'.mono hhead),
        Stmt.shiftedAll ss (hΓ.declare (.inl hopen)) hopen (h.mono htail) (h'.mono htail)⟩
theorem FunctionDecl.shiftedMethods : ∀ (methods : List FunctionDecl) {σ : Shift} {Γ Γ' : Surroundings},
    Surroundings.Aligned σ Γ Γ' → T.Addresses id (FunctionDecl.AtMethods Γ methods) →
    T'.Addresses f (FunctionDecl.AtMethods Γ' methods) → FunctionDecl.ShiftedAll T T' f (true :: σ) methods
  | [], _, _, _, _, _, _ => trivial
  | .mk name params body :: methods, σ, Γ, Γ', hΓ, h, h' => by
      have hthis := (hΓ.both ⟨.classBody, [thisName]⟩).both ⟨.method name.name, params.map Ident.name⟩
      refine ⟨Stmt.shiftedAll body hthis (Shift.open_both _) (h.mono ?_) (h'.mono ?_),
        FunctionDecl.shiftedMethods methods hΓ (h.mono ?_) (h'.mono ?_)⟩
      · exact fun hc => ⟨name, params, body, List.mem_cons_self, hc⟩
      · exact fun hc => ⟨name, params, body, List.mem_cons_self, hc⟩
      all_goals
        rintro Δ c ⟨name', params', body', hmem, hc⟩
        exact ⟨name', params', body', List.mem_cons_of_mem _ hmem, hc⟩
end

end Addresses

/-! ## Paths -/

/-- A path into a statement goes on from there. -/
theorem Stmt.At.trans {Γ₀ Γ Δ : Surroundings} {s₀ s : Stmt} {c : Construct} (h : Stmt.At Γ₀ s₀ Γ (.stmt s))
    (h' : Stmt.At Γ s Δ c) : Stmt.At Γ₀ s₀ Δ c := by
  generalize hs : Construct.stmt s = target at h
  induction h with
  | self =>
      cases hs
      exact h'
  | expr | print | init | value | ifTest | whileTest => cases hs
  | ifTrue _ ih => exact .ifTrue (ih h' hs)
  | ifFalse _ ih => exact .ifFalse (ih h' hs)
  | whileBody _ ih => exact .whileBody (ih h' hs)
  | block _ ih => exact .block (ih h' hs)
  | function _ ih => exact .function (ih h' hs)
  | method hmem _ ih => exact .method hmem (ih h' hs)

theorem Program.At.trans {p : Program} {Γ Δ : Surroundings} {s : Stmt} {c : Construct} (h : p.At Γ (.stmt s))
    (h' : Stmt.At Γ s Δ c) : p.At Δ c := by
  obtain ⟨before, s₀, after, heq, hat⟩ := h
  exact ⟨before, s₀, after, heq, hat.trans h'⟩

/-! ## Renamed trees -/

/-- A construct with its ids renamed. -/
def Construct.mapIds (f : NodeId → NodeId) : Construct → Construct
  | .stmt s => .stmt (s.mapIds f)
  | .expr e => .expr (e.mapIds f)

section Renamed

variable (f : NodeId → NodeId)

theorem Expr.mapIdsAll_eq_map (es : List Expr) : Expr.mapIdsAll f es = es.map (Expr.mapIds f) := by
  induction es with
  | nil => rfl
  | cons e es ih => rw [Expr.mapIdsAll, ih, List.map_cons]

theorem Expr.parts_mapIds (e : Expr) : (e.mapIds f).parts = e.parts.map (Expr.mapIds f) := by
  cases e <;> simp [Expr.mapIds, Expr.parts, Expr.mapIdsAll_eq_map]

theorem Expr.reference?_mapIds (e : Expr) : (e.mapIds f).reference? = e.reference?.map (Reference.mapId f) := by
  cases e <;> rfl

theorem Expr.Contains.mapIds {e node : Expr} (h : e.Contains node) : (e.mapIds f).Contains (node.mapIds f) := by
  induction h with
  | self e => exact .self _
  | @part e part node hpart _ ih =>
      refine .part ?_ ih
      rw [Expr.parts_mapIds]
      exact List.mem_map_of_mem hpart

theorem Stmt.mapIdsAll_eq_map (ss : List Stmt) : Stmt.mapIdsAll f ss = ss.map (Stmt.mapIds f) := by
  induction ss with
  | nil => rfl
  | cons s ss ih => rw [Stmt.mapIdsAll, ih, List.map_cons]

theorem FunctionDecl.mem_mapIdsAll {d : FunctionDecl} {ds : List FunctionDecl} (h : d ∈ ds) :
    d.mapIds f ∈ FunctionDecl.mapIdsAll f ds := by
  induction ds with
  | nil => cases h
  | cons d' ds ih =>
      rcases List.mem_cons.mp h with rfl | h
      · exact List.mem_cons_self
      · exact List.mem_cons_of_mem _ (ih h)

theorem Stmt.declared_mapIds : ∀ s : Stmt, (s.mapIds f).declared = s.declared
  | .expr _ | .print _ | .var _ _ | .block _ | .classDecl _ _ | .ret _ _ => rfl
  | .function decl => by rw [Stmt.mapIds, Stmt.declared, Stmt.declared, FunctionDecl.name_mapIds]
  | .ifElse _ whenTrue none => whenTrue.declared_mapIds
  | .ifElse _ whenTrue (some whenFalse) => by
      rw [Stmt.mapIds, Stmt.declared, Stmt.declared, whenTrue.declared_mapIds, whenFalse.declared_mapIds]
  | .whileLoop _ body => body.declared_mapIds

theorem Stmt.names_mapIds (s : Stmt) : (s.mapIds f).names = s.names := by
  rw [Stmt.names, Stmt.declared_mapIds, Stmt.names]

theorem Stmt.namesAll_mapIds (ss : List Stmt) : Stmt.namesAll (ss.map (Stmt.mapIds f)) = Stmt.namesAll ss := by
  induction ss with
  | nil => rfl
  | cons s ss ih => rw [List.map_cons, Stmt.namesAll_cons, Stmt.namesAll_cons, Stmt.names_mapIds, ih]

variable {f}

/-- Paths into a tree are those into the renamed tree. -/
theorem Stmt.At.mapIds {Γ Δ : Surroundings} {s : Stmt} {c : Construct} (h : Stmt.At Γ s Δ c) :
    Stmt.At Γ (s.mapIds f) Δ (c.mapIds f) := by
  induction h with
  | self => exact .self
  | expr h => exact .expr (h.mapIds f)
  | print h => exact .print (h.mapIds f)
  | init h => exact .init (h.mapIds f)
  | value h => exact .value (h.mapIds f)
  | @ifTest _ _ _ _ whenFalse h =>
      cases whenFalse with
      | none => exact .ifTest (h.mapIds f)
      | some whenFalse => exact .ifTest (h.mapIds f)
  | @ifTrue _ _ _ _ whenFalse _ _ ih =>
      cases whenFalse with
      | none => exact .ifTrue ih
      | some whenFalse => exact .ifTrue ih
  | @ifFalse _ _ _ whenTrue _ _ _ ih =>
      rw [← Stmt.names_mapIds f whenTrue] at ih
      exact .ifFalse ih
  | whileTest h => exact .whileTest (h.mapIds f)
  | whileBody _ ih => exact .whileBody ih
  | @block _ _ before after s _ _ ih =>
      rw [← Stmt.namesAll_mapIds f before] at ih
      rw [Stmt.mapIds, Stmt.mapIdsAll_eq_map, List.map_append, List.map_cons]
      exact .block ih
  | @function _ _ name params before after s _ _ ih =>
      rw [← Stmt.namesAll_mapIds f before] at ih
      rw [Stmt.mapIds, FunctionDecl.mapIds, Stmt.mapIdsAll_eq_map, List.map_append, List.map_cons]
      exact .function ih
  | @method _ _ cls name methods params before after s _ hmem _ ih =>
      rw [← Stmt.namesAll_mapIds f before] at ih
      have hmem := FunctionDecl.mem_mapIdsAll f hmem
      rw [FunctionDecl.mapIds, Stmt.mapIdsAll_eq_map, List.map_append, List.map_cons] at hmem
      exact .method hmem ih

/-- Entries for the ids of a renamed tree are entries for the renamed ids of the tree. -/
theorem DistanceTable.Addresses.of_mapIds {T : DistanceTable} {Γ : Surroundings} {s : Stmt}
    (h : T.Addresses id (Stmt.At Γ (s.mapIds f))) : T.Addresses f (Stmt.At Γ s) := by
  refine ⟨fun {Δ node r} hnode href d => ?_⟩
  have href' : (node.mapIds f).reference? = some (r.mapId f) := by rw [Expr.reference?_mapIds, href, Option.map_some]
  exact h.nearest hnode.mapIds href' d

end Renamed

end Scriptlet
