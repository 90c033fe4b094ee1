import Mathlib.Data.List.Nodup
import Scriptlet.Proofs.Scoping.Surroundings

/-!
# Scope distances are lexical addresses

A distance in the table counts the scopes of the text between a reference and the declaration it stands for.

* `Surroundings.IsNearest Γ name d` — the `d`-th scope outward is the innermost that has declared the name.
* `Expr.Placed Δ e` — a `this` stands inside a class; every other node may stand anywhere.
* `Program.Addressed p table table'` — `table'` has the lexical address of every reference of the program, and
  otherwise the entries of `table`.

Principal results: `Surroundings.Describes.findIdx?_eq_some` — a search in the scopes of the resolver finds the nearest
declaration; `Stmt.makes_of_mem_references` — every reference of a statement is made by a node in it;
`lexical_addressing` — the resolver files the lexical address of every reference.
-/

set_option autoImplicit false

namespace Scriptlet

open ResolveStep Resolution

/-- Counting outward from the innermost, the `d`-th scope is the first that has declared the name. -/
def Surroundings.IsNearest (Γ : Surroundings) (name : String) (d : Nat) : Prop :=
  (∃ enclosure, Γ[d]? = some enclosure ∧ name ∈ enclosure.names) ∧
    ∀ i < d, ∀ enclosure, Γ[i]? = some enclosure → name ∉ enclosure.names

/-- Some class surrounds the point. -/
def Surroundings.InClass (Γ : Surroundings) : Prop := ∃ enclosure ∈ Γ, enclosure.kind = .classBody

/-- Where a node may stand: `this` needs a class around it. -/
def Expr.Placed (Δ : Surroundings) : Expr → Prop
  | .this _ _ => Δ.InClass
  | _ => True

/-- The table `table'` has the lexical addresses of the references of a program, and is `table` apart from them. -/
structure Program.Addressed (p : Program) (table table' : DistanceTable) : Prop where
  /-- The entry of a node is the distance of the nearest scope that has declared its name. -/
  entry : ∀ {Δ : Surroundings} {node : Expr} {r : Reference}, p.At Δ (.expr node) → node.reference? = some r →
    ∀ d, table'.distance? r.id = some d ↔ node.Placed Δ ∧ Δ.IsNearest r.name d
  /-- Every reference is made by a node somewhere in the program. -/
  reached : ∀ r ∈ Stmt.referencesAll p, ∃ Δ node, p.At Δ (.expr node) ∧ node.reference? = some r
  /-- There are no other new entries. -/
  frame : ∀ id ∉ Reference.ids (Stmt.referencesAll p), table'.distance? id = table.distance? id

@[simp] theorem DistanceTable.distance?_empty (id : NodeId) : DistanceTable.empty.distance? id = none := by
  simp [DistanceTable.empty, DistanceTable.distance?]

/-! ## The nearest declaration -/

theorem Surroundings.isNearest_nil (name : String) (d : Nat) : ¬ Surroundings.IsNearest [] name d := by
  rintro ⟨⟨enclosure, h, -⟩, -⟩
  cases h

theorem Surroundings.isNearest_zero {enclosure : Enclosure} {outer : Surroundings} {name : String} :
    Surroundings.IsNearest (enclosure :: outer) name 0 ↔ name ∈ enclosure.names := by
  simp [Surroundings.IsNearest]

theorem Surroundings.isNearest_succ {enclosure : Enclosure} {outer : Surroundings} {name : String} {d : Nat} :
    Surroundings.IsNearest (enclosure :: outer) name (d + 1) ↔
      name ∉ enclosure.names ∧ outer.IsNearest name d := by
  constructor
  · rintro ⟨hfound, hbefore⟩
    exact ⟨hbefore 0 (Nat.succ_pos d) enclosure rfl, hfound, fun i hi => hbefore (i + 1) (Nat.succ_lt_succ hi)⟩
  · rintro ⟨hhead, hfound, hbefore⟩
    refine ⟨hfound, fun i hi enclosure' h => ?_⟩
    cases i with
    | zero => exact Option.some.inj h ▸ hhead
    | succ i => exact hbefore i (Nat.lt_of_succ_lt_succ hi) enclosure' h

/-- A search outward through the scopes of the resolver finds the nearest declaration. -/
theorem Surroundings.Describes.findIdx?_eq_some {Γ : Surroundings} {scopes : ScopeStack} (h : Γ.Describes scopes)
    (name : String) (d : Nat) : scopes.findIdx? (·.declares name) = some d ↔ Γ.IsNearest name d := by
  induction h generalizing d with
  | nil => exact iff_of_false nofun (Surroundings.isNearest_nil name d)
  | @cons enclosure scope outer scopes hscope _ ih =>
      rw [List.findIdx?_cons]
      by_cases hname : scope.declares name = true
      · rw [if_pos hname]
        have hmem := (hscope name).mp hname
        cases d with
        | zero => simp [Surroundings.isNearest_zero, hmem]
        | succ d => simp [Surroundings.isNearest_succ, hmem]
      · rw [if_neg hname]
        have hmem := mt (hscope name).mpr hname
        cases d with
        | zero => simp [Surroundings.isNearest_zero, hmem]
        | succ d => simp [Surroundings.isNearest_succ, hmem, ih]

/-! ## Every reference is made by a node -/

theorem Expr.contains_of_mem_references {r : Reference} (e : Expr) (h : r ∈ e.references) :
    ∃ node, e.Contains node ∧ node.reference? = some r := by
  induction e using Expr.parts_induction with
  | step e ih =>
      rcases List.mem_append.mp (e.references_perm.mem_iff.mp h) with hown | hparts
      · exact ⟨e, .self e, Option.mem_toList.mp hown⟩
      · obtain ⟨part, hpart, hr⟩ := List.mem_flatMap.mp hparts
        obtain ⟨node, hnode, href⟩ := ih part hpart hr
        exact ⟨node, .part hpart hnode, href⟩

/-- Some node of the statement makes the reference, wherever the statement stands. -/
def Stmt.Makes (s : Stmt) (r : Reference) : Prop :=
  ∀ Γ, ∃ Δ node, Stmt.At Γ s Δ (.expr node) ∧ node.reference? = some r

theorem Stmt.makes_of_expr {s : Stmt} {e : Expr} {r : Reference} (h : r ∈ e.references)
    (hs : ∀ Γ, ∃ Δ, ∀ node, e.Contains node → Stmt.At Γ s Δ (.expr node)) : s.Makes r := by
  intro Γ
  obtain ⟨node, hnode, href⟩ := e.contains_of_mem_references h
  obtain ⟨Δ, hat⟩ := hs Γ
  exact ⟨Δ, node, hat node hnode, href⟩

theorem Stmt.Makes.of_part {s s' : Stmt} {r : Reference} (h : s'.Makes r)
    (hs : ∀ Γ, ∃ Γ', ∀ Δ c, Stmt.At Γ' s' Δ c → Stmt.At Γ s Δ c) : s.Makes r := by
  intro Γ
  obtain ⟨Γ', hat⟩ := hs Γ
  obtain ⟨Δ, node, hnode, href⟩ := h Γ'
  exact ⟨Δ, node, hat Δ _ hnode, href⟩

mutual
/-- **Every reference of a statement is made by a node in it.** -/
theorem Stmt.makes_of_mem_references {r : Reference} : ∀ s : Stmt, r ∈ s.references → s.Makes r
  | .expr _, h => Stmt.makes_of_expr h fun _ => ⟨_, fun _ => .expr⟩
  | .print _, h => Stmt.makes_of_expr h fun _ => ⟨_, fun _ => .print⟩
  | .var _ (some _), h => Stmt.makes_of_expr h fun _ => ⟨_, fun _ => .init⟩
  | .ret _ (some _), h => Stmt.makes_of_expr h fun _ => ⟨_, fun _ => .value⟩
  | .block body, h => by
      obtain ⟨before, s, after, rfl, hs⟩ := Stmt.makes_of_mem_referencesAll body h
      exact hs.of_part fun _ => ⟨_, fun _ _ => .block⟩
  | .ifElse test whenTrue none, h => by
      rcases List.mem_append.mp h with h | h
      · exact Stmt.makes_of_expr h fun _ => ⟨_, fun _ => .ifTest⟩
      · exact (whenTrue.makes_of_mem_references h).of_part fun _ => ⟨_, fun _ _ => .ifTrue⟩
  | .ifElse test whenTrue (some whenFalse), h => by
      rcases List.mem_append.mp h with h | h
      · rcases List.mem_append.mp h with h | h
        · exact Stmt.makes_of_expr h fun _ => ⟨_, fun _ => .ifTest⟩
        · exact (whenTrue.makes_of_mem_references h).of_part fun _ => ⟨_, fun _ _ => .ifTrue⟩
      · exact (whenFalse.makes_of_mem_references h).of_part fun _ => ⟨_, fun _ _ => .ifFalse⟩
  | .whileLoop test body, h => by
      rcases List.mem_append.mp h with h | h
      · exact Stmt.makes_of_expr h fun _ => ⟨_, fun _ => .whileTest⟩
      · exact (body.makes_of_mem_references h).of_part fun _ => ⟨_, fun _ _ => .whileBody⟩
  | .function (.mk name params body), h => by
      obtain ⟨before, s, after, rfl, hs⟩ := Stmt.makes_of_mem_referencesAll body h
      exact hs.of_part fun _ => ⟨_, fun _ _ => .function⟩
  | .classDecl cls methods, h => by
      obtain ⟨name, params, before, s, after, hmem, hs⟩ := FunctionDecl.makes_of_mem_referencesAll methods h
      exact hs.of_part fun _ => ⟨_, fun _ _ => .method hmem⟩
theorem Stmt.makes_of_mem_referencesAll {r : Reference} : ∀ ss : List Stmt, r ∈ Stmt.referencesAll ss →
    ∃ before s after, ss = before ++ s :: after ∧ s.Makes r
  | s :: ss, h => by
      rcases List.mem_append.mp h with h | h
      · exact ⟨[], s, ss, rfl, s.makes_of_mem_references h⟩
      · obtain ⟨before, s', after, hss, hs'⟩ := Stmt.makes_of_mem_referencesAll ss h
        exact ⟨s :: before, s', after, by rw [hss, List.cons_append], hs'⟩
theorem FunctionDecl.makes_of_mem_referencesAll {r : Reference} : ∀ methods : List FunctionDecl,
    r ∈ FunctionDecl.referencesAll methods →
      ∃ name params before s after, .mk name params (before ++ s :: after) ∈ methods ∧ s.Makes r
  | .mk name params body :: methods, h => by
      rcases List.mem_append.mp h with h | h
      · obtain ⟨before, s, after, rfl, hs⟩ := Stmt.makes_of_mem_referencesAll body h
        exact ⟨name, params, before, s, after, List.mem_cons_self, hs⟩
      · obtain ⟨name', params', before, s, after, hmem, hs⟩ := FunctionDecl.makes_of_mem_referencesAll methods h
        exact ⟨name', params', before, s, after, List.mem_cons_of_mem _ hmem, hs⟩
end

/-! ## What the resolver files -/

/-- The last step over a node that may stand where it does is its reference. -/
theorem Expr.steps_of_reference {site : Site} {e : Expr} {r : Reference} (h : e.reference? = some r)
    (hthis : ∀ id line, e = .this id line → site.inClass = true) :
    ∃ pre, e.steps site = pre ++ [.refer r.id r.name] ∧ ∀ st : Resolution, (st.walk pre).scopes = st.scopes := by
  cases e with
  | var id name =>
      cases h
      exact ⟨[.read name], rfl, fun st => (walks_ifReport _ st _ _ _).scopes⟩
  | assign id name value =>
      cases h
      exact ⟨value.steps site, rfl, value.walk_scopes site⟩
  | update id name op operand =>
      cases h
      exact ⟨operand.steps site, rfl, operand.walk_scopes site⟩
  | this id line =>
      cases h
      exact ⟨[], by simp [Expr.steps, hthis id line rfl], fun st => rfl⟩
  | _ => cases h

theorem Surroundings.inClass_site {Γ : Surroundings} : Γ.site.inClass = true ↔ Γ.InClass := by
  simp [Surroundings.site, Surroundings.InClass]

theorem Expr.inClass_of_placed {Δ : Surroundings} {node : Expr} (h : node.Placed Δ) (id : NodeId) (line : Nat)
    (hthis : node = .this id line) : Δ.site.inClass = true :=
  Surroundings.inClass_site.mpr (hthis ▸ h :)

section Resolve

variable {p : Program} {table : DistanceTable} {Δ : Surroundings} {node : Expr} {r : Reference}

/-- A node that may stand where it does gets the distance of the nearest declaration. -/
theorem Program.At.distance?_eq_some (hat : p.At Δ (.expr node)) (href : node.reference? = some r)
    (hids : (Reference.ids (Stmt.referencesAll p)).Nodup)
    (hfree : ∀ id ∈ Reference.ids (Stmt.referencesAll p), table.distance? id = none)
    (hplaced : node.Placed Δ) (d : Nat) :
    (resolve table p).table.distance? r.id = some d ↔ Δ.IsNearest r.name d := by
  obtain ⟨before, after, hsplit, hscopes, -⟩ := hat.splits
  obtain ⟨pre, hsteps, hpre⟩ := Expr.steps_of_reference href (Expr.inClass_of_placed hplaced)
  have hpath : p.steps = (before ++ pre) ++ .refer r.id r.name :: after := by
    rw [hsplit, Construct.steps, hsteps]
    simp
  rw [resolve_eq_walk, walk_distance? (Program.nodup_referred hids)
    (fun id hid => hfree id (Program.mem_ids_of_referred hid)) hpath, walk_append, hpre]
  exact (hscopes ⟨[], table, []⟩ .nil).findIdx?_eq_some r.name d

/-- A `this` outside classes gets no distance. -/
theorem Program.At.distance?_eq_none (hat : p.At Δ (.expr node)) (href : node.reference? = some r)
    (hids : (Reference.ids (Stmt.referencesAll p)).Nodup)
    (hfree : ∀ id ∈ Reference.ids (Stmt.referencesAll p), table.distance? id = none)
    (hmisplaced : ¬ node.Placed Δ) : (resolve table p).table.distance? r.id = none := by
  cases node with
  | this id line =>
      cases href
      obtain ⟨before, after, hsplit, -, hcount⟩ := hat.splits
      have hsteps : (Expr.this id line).steps Δ.site = [.report line thisName .thisOutsideClass] := by
        rw [Expr.steps, if_neg (mt Surroundings.inClass_site.mp hmisplaced)]
      -- The node is the only one with its id, so no step before or after it refers to the id.
      have hcount := hcount id
      have hone := List.nodup_iff_count_le_one.mp hids id
      have hself : (Reference.ids (Construct.expr (.this id line)).references).count id = 1 := by
        simp [Construct.references, Expr.references, Reference.ids]
      have hpath : id ∉ referred p.steps := by
        rw [hsplit, Construct.steps, hsteps, ← List.count_eq_zero]
        simp only [referred_append, List.count_append, referred, List.count_nil]
        omega
      have hmem : id ∈ Reference.ids (Stmt.referencesAll p) := List.count_pos_iff.mp (by omega)
      rw [resolve_eq_walk, walk_frame _ _ hpath]
      exact hfree id hmem
  | _ => exact absurd trivial hmisplaced

/-- Nodes of other programs keep their entries. -/
theorem resolve_frame {id : NodeId} (h : id ∉ Reference.ids (Stmt.referencesAll p)) :
    (resolve table p).table.distance? id = table.distance? id := by
  rw [resolve_eq_walk, walk_frame _ _ fun hid => h (Program.mem_ids_of_referred hid)]

/-- The entry of a node is its lexical address. -/
theorem Program.At.distance?_iff (hat : p.At Δ (.expr node)) (href : node.reference? = some r)
    (hids : (Reference.ids (Stmt.referencesAll p)).Nodup)
    (hfree : ∀ id ∈ Reference.ids (Stmt.referencesAll p), table.distance? id = none) (d : Nat) :
    (resolve table p).table.distance? r.id = some d ↔ node.Placed Δ ∧ Δ.IsNearest r.name d := by
  by_cases hplaced : node.Placed Δ
  · rw [hat.distance?_eq_some href hids hfree hplaced, and_iff_right hplaced]
  · rw [hat.distance?_eq_none href hids hfree hplaced]
    exact iff_of_false nofun fun h => hplaced h.1

/-- Every reference of a program is made by a node in it. -/
theorem Program.exists_at_of_mem (h : r ∈ Stmt.referencesAll p) :
    ∃ Δ node, p.At Δ (.expr node) ∧ node.reference? = some r := by
  obtain ⟨before, s, after, rfl, hs⟩ := Stmt.makes_of_mem_referencesAll p h
  obtain ⟨Δ, node, hat, href⟩ := hs []
  exact ⟨Δ, node, ⟨before, s, after, rfl, hat⟩, href⟩

/-- **The resolver files the lexical address of every reference, and nothing else.** -/
theorem lexical_addressing (hids : (Reference.ids (Stmt.referencesAll p)).Nodup)
    (hfree : ∀ id ∈ Reference.ids (Stmt.referencesAll p), table.distance? id = none) :
    p.Addressed table (resolve table p).table where
  entry hat href := hat.distance?_iff href hids hfree
  reached _ := Program.exists_at_of_mem
  frame _ := resolve_frame

end Resolve

/-- A function in a block reads a name of the block and assigns its own parameter; `this` stands in a method of a class
in the block and, misplaced, at top level. -/
def nestedScopes : Program :=
  [.block [.var ⟨"a", 1⟩ none,
      .function (.mk ⟨"f", 2⟩ [⟨"b", 2⟩] [.print (.var 0 ⟨"a", 2⟩), .expr (.assign 1 ⟨"b", 3⟩ (.var 2 ⟨"g", 3⟩))]),
      .classDecl ⟨"C", 4⟩ [.mk ⟨"m", 4⟩ [] [.print (.this 3 4)]]],
    .print (.this 4 5)]

theorem lexical_addressing_nestedScopes :
    (Reference.ids (Stmt.referencesAll nestedScopes)).Nodup ∧
    nestedScopes.Addressed .empty (resolve .empty nestedScopes).table ∧
    Program.At nestedScopes [⟨.function, ["b"]⟩, ⟨.block, ["a", "f"]⟩] (.expr (.var 0 ⟨"a", 2⟩)) ∧
    (resolve .empty nestedScopes).table.distance? 0 = some 1 := by
  have hids : (Reference.ids (Stmt.referencesAll nestedScopes)).Nodup := by decide
  have haddressed := lexical_addressing hids fun id _ => DistanceTable.distance?_empty id
  have hat : Program.At nestedScopes [⟨.function, ["b"]⟩, ⟨.block, ["a", "f"]⟩] (.expr (.var 0 ⟨"a", 2⟩)) :=
    ⟨[], _, _, rfl, @Stmt.At.block _ _ [_] _ _ _ (@Stmt.At.function _ _ _ _ [] _ _ _ (.print (.self _)))⟩
  refine ⟨hids, haddressed, hat, (haddressed.entry hat rfl 1).mpr ⟨trivial, ?_⟩⟩
  rw [Surroundings.isNearest_succ, Surroundings.isNearest_zero]
  decide

end Scriptlet
