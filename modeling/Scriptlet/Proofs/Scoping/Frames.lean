import Scriptlet.Proofs.Scoping.StaticRules
import Scriptlet.Proofs.Tree.Idents

/-!
# Frames

Of the scopes around a point of a program, some are scopes of `this`: one around the methods of each class.

* `Frame` — for each scope around a point, the innermost first, whether it is a scope of `this`.
* `Frame.Admits L F r` — the distance that is filed for the reference `r` leads to the nearest scope of `this` if it
  refers to `this`, and to no such scope otherwise.
* `Stmt.Framed L F s`, `FunctionDecl.Framed L F d` — all references of a tree are admitted, each by the frame around it,
  and no name that the tree declares is spelled `this`.

Principal results: `Stmt.framed` — a tree whose references have lexical addresses is framed; `resolve_framed` — so is a
program that is resolved without an error; `Stmt.Framed.grow` — a table may grow by new node ids.
-/

set_option autoImplicit false

namespace Scriptlet

/-- For each scope around a point, the innermost first, whether it is a scope of `this`. -/
abbrev Frame := List Bool

/-- What a frame asks of the distance that is filed for a reference. -/
structure Frame.Admits (L : Layout) (F : Frame) (r : Reference) : Prop where
  bounded : r.id < L.bound
  /-- A reference to `this` only reads, and leads to the nearest scope of `this`. -/
  this : r.name = thisName → r.access = .read ∧ ∃ d, L.table.distance? r.id = some d ∧ F.findIdx? id = some d
  /-- Other references lead to other scopes. -/
  other : r.name ≠ thisName → ∀ d, L.table.distance? r.id = some d → F[d]? = some false

/-- All references are admitted by the same frame. -/
def Frame.AdmitsAll (L : Layout) (F : Frame) (refs : List Reference) : Prop := ∀ r ∈ refs, F.Admits L r

mutual
/-- All references of a statement are admitted, and it declares no `this`. -/
def Stmt.Framed (L : Layout) (F : Frame) : Stmt → Prop
  | .expr e => F.AdmitsAll L e.references
  | .print e => F.AdmitsAll L e.references
  | .var name init => name.name ≠ thisName ∧ F.AdmitsAll L (Expr.referencesOpt init)
  | .block body => Stmt.FramedAll L (false :: F) body
  | .ifElse test whenTrue none => F.AdmitsAll L test.references ∧ whenTrue.Framed L F
  | .ifElse test whenTrue (some whenFalse) =>
      F.AdmitsAll L test.references ∧ whenTrue.Framed L F ∧ whenFalse.Framed L F
  | .whileLoop test body => F.AdmitsAll L test.references ∧ body.Framed L F
  | .function decl => decl.name.name ≠ thisName ∧ decl.Framed L F
  | .classDecl name methods => name.name ≠ thisName ∧ FunctionDecl.FramedAll L (true :: F) methods
  | .ret _ value => F.AdmitsAll L (Expr.referencesOpt value)
/-- All references of statements are admitted, and they declare no `this`. -/
def Stmt.FramedAll (L : Layout) (F : Frame) : List Stmt → Prop
  | [] => True
  | s :: rest => s.Framed L F ∧ Stmt.FramedAll L F rest
/-- The frame is that around the function; its parameters have a scope of their own. -/
def FunctionDecl.Framed (L : Layout) (F : Frame) : FunctionDecl → Prop
  | .mk _ params body => (∀ param ∈ params, param.name ≠ thisName) ∧ Stmt.FramedAll L (false :: F) body
/-- Several functions in the same frame. -/
def FunctionDecl.FramedAll (L : Layout) (F : Frame) : List FunctionDecl → Prop
  | [] => True
  | d :: rest => d.Framed L F ∧ FunctionDecl.FramedAll L F rest
end

section Framed

variable {L L' : Layout} {F : Frame}

theorem Frame.AdmitsAll.sub {refs refs' : List Reference} (h : F.AdmitsAll L refs) (hsub : ∀ r ∈ refs', r ∈ refs) :
    F.AdmitsAll L refs' :=
  fun r hr => h r (hsub r hr)

theorem FunctionDecl.framedAll_iff {ds : List FunctionDecl} :
    FunctionDecl.FramedAll L F ds ↔ ∀ d ∈ ds, d.Framed L F := by
  induction ds with
  | nil => simp [FunctionDecl.FramedAll]
  | cons d ds ih => simp [FunctionDecl.FramedAll, ih]

theorem FunctionDecl.Framed.params : ∀ {d : FunctionDecl}, d.Framed L F → ∀ param ∈ d.params, param.name ≠ thisName
  | .mk _ _ _, h => h.1

theorem FunctionDecl.Framed.body : ∀ {d : FunctionDecl}, d.Framed L F → Stmt.FramedAll L (false :: F) d.body
  | .mk _ _ _, h => h.2

theorem Stmt.Framed.ifTest {test : Expr} {whenTrue : Stmt} : ∀ {whenFalse : Option Stmt},
    (Stmt.ifElse test whenTrue whenFalse).Framed L F → F.AdmitsAll L test.references
  | none, h => h.1
  | some _, h => h.1

theorem Stmt.Framed.ifTrue {test : Expr} {whenTrue : Stmt} : ∀ {whenFalse : Option Stmt},
    (Stmt.ifElse test whenTrue whenFalse).Framed L F → whenTrue.Framed L F
  | none, h => h.2
  | some _, h => h.2.1

/-! ## Growing tables -/

theorem Frame.Admits.grow {r : Reference} (hL : L.Extends L') (h : F.Admits L r) : F.Admits L' r where
  bounded := Nat.lt_of_lt_of_le h.bounded hL.bound
  this := by
    rw [hL.table r.id h.bounded]
    exact h.this
  other := by
    rw [hL.table r.id h.bounded]
    exact h.other

theorem Frame.AdmitsAll.grow {refs : List Reference} (hL : L.Extends L') (h : F.AdmitsAll L refs) :
    F.AdmitsAll L' refs :=
  fun r hr => (h r hr).grow hL

mutual
/-- What is framed stays so while the table grows. -/
theorem Stmt.Framed.grow (hL : L.Extends L') : ∀ {F : Frame} {s : Stmt}, s.Framed L F → s.Framed L' F
  | _, .expr _, h => Frame.AdmitsAll.grow hL h
  | _, .print _, h => Frame.AdmitsAll.grow hL h
  | _, .var _ _, h => ⟨h.1, h.2.grow hL⟩
  | _, .block _, h => Stmt.Framed.growAll hL h
  | _, .ifElse _ _ none, h => ⟨h.1.grow hL, h.2.grow hL⟩
  | _, .ifElse _ _ (some _), h => ⟨h.1.grow hL, h.2.1.grow hL, h.2.2.grow hL⟩
  | _, .whileLoop _ _, h => ⟨h.1.grow hL, h.2.grow hL⟩
  | _, .function _, h => ⟨h.1, h.2.grow hL⟩
  | _, .classDecl _ _, h => ⟨h.1, FunctionDecl.Framed.growAll hL h.2⟩
  | _, .ret _ _, h => Frame.AdmitsAll.grow hL h
theorem Stmt.Framed.growAll (hL : L.Extends L') : ∀ {F : Frame} {ss : List Stmt}, Stmt.FramedAll L F ss →
    Stmt.FramedAll L' F ss
  | _, [], _ => trivial
  | _, _ :: _, h => ⟨h.1.grow hL, Stmt.Framed.growAll hL h.2⟩
theorem FunctionDecl.Framed.grow (hL : L.Extends L') : ∀ {F : Frame} {d : FunctionDecl}, d.Framed L F → d.Framed L' F
  | _, .mk _ _ _, h => ⟨h.1, Stmt.Framed.growAll hL h.2⟩
theorem FunctionDecl.Framed.growAll (hL : L.Extends L') : ∀ {F : Frame} {ds : List FunctionDecl},
    FunctionDecl.FramedAll L F ds → FunctionDecl.FramedAll L' F ds
  | _, [], _ => trivial
  | _, _ :: _, h => ⟨h.1.grow hL, FunctionDecl.Framed.growAll hL h.2⟩
end

end Framed

/-! ## Frames of surroundings -/

namespace Surroundings

/-- The scopes of `this` are those around the methods of a class. -/
def frame (Γ : Surroundings) : Frame := Γ.map fun enclosure => decide (enclosure.kind = .classBody)

/-- Exactly the scopes around methods declare `this`, and they declare nothing else. -/
structure Proper (Γ : Surroundings) : Prop where
  classes : ∀ enclosure ∈ Γ, enclosure.kind = .classBody → enclosure.names = [thisName]
  others : ∀ enclosure ∈ Γ, enclosure.kind ≠ .classBody → thisName ∉ enclosure.names
  /-- The innermost scope is not that around methods. -/
  inner : ∀ enclosure ∈ Γ.head?, enclosure.kind ≠ .classBody

variable {Γ : Surroundings}

theorem proper_nil : Proper [] := ⟨nofun, nofun, nofun⟩

@[simp] theorem frame_declare (Γ : Surroundings) (names : List String) : (Γ.declare names).frame = Γ.frame := by
  cases Γ <;> rfl

theorem Proper.declare (h : Γ.Proper) {names : List String} (hnames : thisName ∉ names) : (Γ.declare names).Proper := by
  cases Γ with
  | nil => exact h
  | cons enclosure outer =>
      have hkind := h.inner enclosure rfl
      refine ⟨List.forall_mem_cons.mpr ⟨?_, ?_⟩, List.forall_mem_cons.mpr ⟨?_, ?_⟩, ?_⟩
      · exact fun hclass => absurd hclass hkind
      · exact fun E hE => h.classes E (List.mem_cons_of_mem _ hE)
      · intro _ hmem
        rcases List.mem_append.mp hmem with hmem | hmem
        · exact h.others enclosure List.mem_cons_self hkind hmem
        · exact hnames hmem
      · exact fun E hE => h.others E (List.mem_cons_of_mem _ hE)
      · rintro E ⟨⟩
        exact hkind

/-- A block, function or method inside proper surroundings. -/
theorem Proper.push (h : Γ.Proper) {kind : EnclosureKind} {names : List String} (hkind : kind ≠ .classBody)
    (hnames : thisName ∉ names) : Proper (⟨kind, names⟩ :: Γ) := by
  refine ⟨List.forall_mem_cons.mpr ⟨?_, h.classes⟩, List.forall_mem_cons.mpr ⟨fun _ => hnames, h.others⟩, ?_⟩
  · exact fun hclass => absurd hclass hkind
  · rintro E ⟨⟩
    exact hkind

/-- A method: its scope, then that of `this`. -/
theorem Proper.method (h : Γ.Proper) {name : Ident} {params : List Ident}
    (hparams : thisName ∉ params.map Ident.name) : (Γ.inMethod name params).Proper := by
  refine ⟨List.forall_mem_cons.mpr ⟨nofun, List.forall_mem_cons.mpr ⟨fun _ => rfl, h.classes⟩⟩,
    List.forall_mem_cons.mpr ⟨fun _ => hparams, List.forall_mem_cons.mpr ⟨?_, h.others⟩⟩, ?_⟩
  · exact fun hclass => absurd rfl hclass
  · rintro E ⟨⟩
    exact nofun

/-- The nearest declaration of `this` is in the nearest scope of `this`. -/
theorem isNearest_this (hclasses : ∀ E ∈ Γ, E.kind = .classBody → E.names = [thisName])
    (hothers : ∀ E ∈ Γ, E.kind ≠ .classBody → thisName ∉ E.names) {d : Nat} :
    Γ.frame.findIdx? id = some d → Γ.IsNearest thisName d := by
  induction Γ generalizing d with
  | nil => exact nofun
  | cons E outer ih =>
      intro h
      rw [frame, List.map_cons, List.findIdx?_cons] at h
      by_cases hkind : E.kind = .classBody
      · simp only [hkind, decide_true, id_eq, if_true] at h
        cases h
        rw [isNearest_zero, hclasses E List.mem_cons_self hkind]
        exact List.mem_singleton_self _
      · simp only [hkind, decide_false, id_eq, Bool.false_eq_true, if_false, Option.map_eq_some_iff] at h
        obtain ⟨d', hd', rfl⟩ := h
        refine isNearest_succ.mpr ⟨hothers E List.mem_cons_self hkind, ih ?_ ?_ hd'⟩
        · exact fun E' hE' => hclasses E' (List.mem_cons_of_mem _ hE')
        · exact fun E' hE' => hothers E' (List.mem_cons_of_mem _ hE')

/-- The nearest declaration of another name is in another scope. -/
theorem Proper.isNearest_other (h : Γ.Proper) {name : String} {d : Nat} (hname : name ≠ thisName)
    (hd : Γ.IsNearest name d) : Γ.frame[d]? = some false := by
  obtain ⟨⟨E, hE, hmem⟩, -⟩ := hd
  rw [frame, List.getElem?_map, hE, Option.map_some]
  refine congrArg some (decide_eq_false fun hkind => hname ?_)
  rw [h.classes E (List.mem_of_getElem? hE) hkind] at hmem
  exact List.mem_singleton.mp hmem

theorem exists_findIdx?_frame (h : Γ.InClass) : ∃ d, Γ.frame.findIdx? id = some d := by
  rw [← Option.isSome_iff_exists, List.findIdx?_isSome, frame, List.any_map]
  exact (by simpa [InClass] using h)

end Surroundings

/-! ## Programs with lexical addresses are framed -/

/-- References have lexical addresses, wherever they occur, and `this` occurs in classes only. -/
structure Layout.Addresses (L : Layout) (occurs : Surroundings → Construct → Prop) : Prop where
  bounded : ∀ {Δ node r}, occurs Δ (.expr node) → node.reference? = some r → r.id < L.bound
  nearest : ∀ {Δ node r}, occurs Δ (.expr node) → node.reference? = some r →
    ∀ d, L.table.distance? r.id = some d ↔ Δ.IsNearest r.name d
  inClass : ∀ {Δ id line}, occurs Δ (.expr (.this id line)) → Δ.InClass

section Addresses

variable {L : Layout} {Γ : Surroundings}

theorem Layout.Addresses.mono {occurs occurs' : Surroundings → Construct → Prop} (h : L.Addresses occurs)
    (hsub : ∀ {Δ c}, occurs' Δ c → occurs Δ c) : L.Addresses occurs' where
  bounded hc := h.bounded (hsub hc)
  nearest hc := h.nearest (hsub hc)
  inClass hc := h.inClass (hsub hc)

/-- A node that is not `this` refers to a name in the tree. -/
theorem Expr.reference?_cases {node : Expr} {r : Reference} (h : node.reference? = some r) :
    (∃ id line, node = .this id line ∧ r = ⟨id, thisName, .read⟩) ∨ ∃ name ∈ node.idents, r.name = name.name := by
  cases node with
  | var id name | assign id name _ | update id name _ _ =>
      cases h
      exact .inr ⟨name, by simp [Expr.idents], rfl⟩
  | this id line =>
      cases h
      exact .inl ⟨id, line, rfl, rfl⟩
  | lit | group | unary | binary | logical | ternary | array | index | call | get | set => cases h

theorem Layout.Addresses.admits {occurs : Surroundings → Construct → Prop} (h : L.Addresses occurs) (hΓ : Γ.Proper)
    {e : Expr} (hnames : ∀ name ∈ e.idents, name.name ≠ thisName)
    (hoccurs : ∀ node, e.Contains node → occurs Γ (.expr node)) : Γ.frame.AdmitsAll L e.references := by
  intro r hr
  obtain ⟨node, hnode, href⟩ := e.contains_of_mem_references hr
  have hat := hoccurs node hnode
  refine ⟨h.bounded hat href, fun hthis => ?_, fun hname d hd => ?_⟩
  · rcases Expr.reference?_cases href with ⟨id, line, rfl, rfl⟩ | ⟨name, hmem, heq⟩
    · obtain ⟨d, hd⟩ := Surroundings.exists_findIdx?_frame (h.inClass hat)
      have hnearest := Surroundings.isNearest_this hΓ.classes hΓ.others hd
      exact ⟨rfl, d, (h.nearest hat href d).mpr hnearest, hd⟩
    · exact absurd (heq ▸ hthis) (hnames name (hnode.idents hmem))
  · exact hΓ.isNearest_other hname ((h.nearest hat href d).mp hd)

theorem not_mem_of_idents {names : List String} {idents : List Ident} (hsub : names ⊆ idents.map Ident.name)
    (hidents : ∀ name ∈ idents, name.name ≠ thisName) : thisName ∉ names := by
  intro hmem
  obtain ⟨name, hname, heq⟩ := List.mem_map.mp (hsub hmem)
  exact hidents name hname heq

mutual
/-- **A statement whose references have lexical addresses is framed.** -/
theorem Stmt.framed : ∀ (s : Stmt) {Γ : Surroundings}, Γ.Proper → (∀ name ∈ s.idents, name.name ≠ thisName) →
    L.Addresses (Stmt.At Γ s) → s.Framed L Γ.frame
  | .expr _, _, hΓ, hnames, h => h.admits hΓ hnames fun _ => .expr
  | .print _, _, hΓ, hnames, h => h.admits hΓ hnames fun _ => .print
  | .var name none, _, _, hnames, _ => ⟨hnames name List.mem_cons_self, nofun⟩
  | .var name (some init), Γ, hΓ, hnames, h => by
      have hname := hnames name List.mem_cons_self
      have hinit := h.admits (hΓ.declare (List.mem_singleton.not.mpr (Ne.symm hname)))
        (fun n hn => hnames n (List.mem_cons_of_mem _ hn)) fun _ => .init
      rw [Surroundings.frame_declare] at hinit
      exact ⟨hname, hinit⟩
  | .ret _ none, _, _, _, _ => nofun
  | .ret _ (some _), _, hΓ, hnames, h => h.admits hΓ hnames fun _ => .value
  | .block body, Γ, hΓ, hnames, h => by
      have hscope : Γ.inBlock.Proper := hΓ.push nofun List.not_mem_nil
      refine Stmt.framedAll body hscope hnames (h.mono ?_)
      rintro Δ c ⟨before, s, after, rfl, hc⟩
      exact .block hc
  | .ifElse test whenTrue none, Γ, hΓ, hnames, h => by
      simp only [Stmt.idents, List.forall_mem_append] at hnames
      exact ⟨h.admits hΓ hnames.1 fun _ => .ifTest, whenTrue.framed hΓ hnames.2 (h.mono .ifTrue)⟩
  | .ifElse test whenTrue (some whenFalse), Γ, hΓ, hnames, h => by
      simp only [Stmt.idents, List.forall_mem_append] at hnames
      have hdeclared := not_mem_of_idents whenTrue.names_subset hnames.1.2
      have hfalse := whenFalse.framed (hΓ.declare hdeclared) hnames.2 (h.mono .ifFalse)
      rw [Surroundings.frame_declare] at hfalse
      exact ⟨h.admits hΓ hnames.1.1 fun _ => .ifTest, whenTrue.framed hΓ hnames.1.2 (h.mono .ifTrue), hfalse⟩
  | .whileLoop test body, Γ, hΓ, hnames, h => by
      simp only [Stmt.idents, List.forall_mem_append] at hnames
      exact ⟨h.admits hΓ hnames.1 fun _ => .whileTest, body.framed hΓ hnames.2 (h.mono .whileBody)⟩
  | .function (.mk name params body), Γ, hΓ, hnames, h => by
      simp only [Stmt.idents, FunctionDecl.idents, List.forall_mem_cons, List.forall_mem_append] at hnames
      obtain ⟨hname, hparams, hbody⟩ := hnames
      have hdeclared : thisName ∉ [name.name] := List.mem_singleton.not.mpr (Ne.symm hname)
      have hscope : ((Γ.declare [name.name]).inFunction params).Proper :=
        (hΓ.declare hdeclared).push nofun (not_mem_of_idents (fun _ h => h) hparams)
      have hframed : Stmt.FramedAll L (false :: (Γ.declare [name.name]).frame) body := by
        refine Stmt.framedAll body hscope hbody (h.mono ?_)
        rintro Δ c ⟨before, s, after, rfl, hc⟩
        exact .function hc
      rw [Surroundings.frame_declare] at hframed
      exact ⟨hname, hparams, hframed⟩
  | .classDecl name methods, Γ, hΓ, hnames, h => by
      simp only [Stmt.idents, List.forall_mem_cons] at hnames
      have hdeclared : thisName ∉ [name.name] := List.mem_singleton.not.mpr (Ne.symm hnames.1)
      have hmethods : L.Addresses (FunctionDecl.AtMethods (Γ.declare [name.name]) methods) := by
        refine h.mono ?_
        rintro Δ c ⟨method, params, _, hmem, before, s, after, rfl, hc⟩
        exact .method hmem hc
      have hframed := FunctionDecl.framedMethods methods (hΓ.declare hdeclared) hnames.2 hmethods
      rw [Surroundings.frame_declare] at hframed
      exact ⟨hnames.1, hframed⟩
theorem Stmt.framedAll : ∀ (ss : List Stmt) {Γ : Surroundings}, Γ.Proper →
    (∀ name ∈ Stmt.identsAll ss, name.name ≠ thisName) → L.Addresses (Stmt.AtAll Γ ss) →
    Stmt.FramedAll L Γ.frame ss
  | [], _, _, _, _ => trivial
  | s :: ss, Γ, hΓ, hnames, h => by
      simp only [Stmt.identsAll, List.forall_mem_append] at hnames
      have hdeclared := not_mem_of_idents s.names_subset hnames.1
      have hs := s.framed hΓ hnames.1 (h.mono fun hc => ⟨[], s, ss, rfl, (Γ.declare_nil).symm ▸ hc⟩)
      have htail : L.Addresses (Stmt.AtAll (Γ.declare s.names) ss) := by
        refine h.mono ?_
        rintro Δ c ⟨before, s', after, rfl, hc⟩
        refine ⟨s :: before, s', after, rfl, ?_⟩
        rwa [Stmt.namesAll_cons, Surroundings.declare_append]
      have hss := Stmt.framedAll ss (hΓ.declare hdeclared) hnames.2 htail
      rw [Surroundings.frame_declare] at hss
      exact ⟨hs, hss⟩
theorem FunctionDecl.framedMethods : ∀ (methods : List FunctionDecl) {Γ : Surroundings}, Γ.Proper →
    (∀ name ∈ FunctionDecl.identsAll methods, name.name ≠ thisName) → L.Addresses (FunctionDecl.AtMethods Γ methods) →
    FunctionDecl.FramedAll L (true :: Γ.frame) methods
  | [], _, _, _, _ => trivial
  | .mk name params body :: methods, Γ, hΓ, hnames, h => by
      simp only [FunctionDecl.identsAll, FunctionDecl.idents, List.forall_mem_cons, List.forall_mem_append] at hnames
      obtain ⟨⟨-, hparams, hbody⟩, hmethods⟩ := hnames
      have hscope : (Γ.inMethod name params).Proper := hΓ.method (not_mem_of_idents (fun _ h => h) hparams)
      have hmethod := Stmt.framedAll body hscope hbody
        (h.mono fun hc => ⟨name, params, body, List.mem_cons_self, hc⟩)
      refine ⟨⟨hparams, hmethod⟩, FunctionDecl.framedMethods methods hΓ hmethods (h.mono ?_)⟩
      rintro Δ c ⟨name', params', body', hmem, hc⟩
      exact ⟨name', params', body', List.mem_cons_of_mem _ hmem, hc⟩
end

end Addresses

/-- What a node in a tree refers to is among the references of the tree. -/
theorem Splits.mem_ids {as bs : List ResolveStep} {refs : List Reference} {R : ScopeStack → ScopeStack → Prop}
    {node : Expr} {r : Reference} (h : Splits as refs bs (Construct.expr node).references R)
    (href : node.reference? = some r) : r.id ∈ Reference.ids refs := by
  obtain ⟨before, after, -, -, hcount⟩ := h
  have hmem : r ∈ node.references := by
    rw [node.references_perm.mem_iff, href]
    exact List.mem_append_left _ (Option.mem_toList.mpr rfl)
  have hpos : 0 < (Reference.ids (Construct.expr node).references).count r.id :=
    List.count_pos_iff.mpr (Reference.mem_ids hmem)
  have hle := hcount r.id
  exact List.count_pos_iff.mp (by omega)

/-- What a node of a program refers to is among the references of the program. -/
theorem Program.At.mem_ids {p : Program} {Δ : Surroundings} {node : Expr} {r : Reference} (hat : p.At Δ (.expr node))
    (href : node.reference? = some r) : r.id ∈ Reference.ids (Stmt.referencesAll p) :=
  (Program.At.splits hat).mem_ids href

/-- **A program that is resolved without an error is framed.** -/
theorem resolve_framed {L : Layout} {p : Program} {table : DistanceTable} (herrors : (resolve table p).errors = [])
    (hids : (Reference.ids (Stmt.referencesAll p)).Nodup)
    (hfree : ∀ id ∈ Reference.ids (Stmt.referencesAll p), table.distance? id = none)
    (hbound : ∀ id ∈ Reference.ids (Stmt.referencesAll p), id < L.bound) (htable : L.table = (resolve table p).table)
    (hnames : ∀ name ∈ Stmt.identsAll p, name.name ≠ thisName) : Stmt.FramedAll L [] p := by
  have hrules := Program.keepsRules herrors
  refine Stmt.framedAll p Surroundings.proper_nil hnames ⟨?_, ?_, hrules.this⟩
  · exact fun hat href => hbound _ (Program.At.mem_ids hat href)
  · intro Δ node r hat href d
    have hplaced : node.Placed Δ := by
      cases node with
      | this id line => exact hrules.this hat
      | _ => trivial
    rw [htable, Program.At.distance?_eq_some hat href hids hfree hplaced]

end Scriptlet
