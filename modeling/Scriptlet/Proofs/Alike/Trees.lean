import Scriptlet.Proofs.Scoping.Static
import Scriptlet.Proofs.Tree.Lines

/-!
# Programs alike but for local names

Two programs bind their names alike if they have the same shape, corresponding references have the same scope
distance, and the names of each local scope of one are those of the other under an injective renaming.  Such programs
may also differ in lines.

* `NameMap` — an injective renaming that keeps `this`.
* `Variation` — the two tables of scope distances, the renamings in use, and which lines stand for each other.
* `Expr.Alike V Φ e e'`, `Stmt.Alike V Φ s s'`, `FunctionDecl.Alike V Φ d d'` — the trees are alike, where `Φ` are the
  renamings of the local scopes around them, the innermost first.

Principal results: `Stmt.AlikeAll.mapLines` — a program is like itself on other lines, under tables that agree on its
references; `Stmt.AlikeAll.refl` — so it is on its own lines.
-/

set_option autoImplicit false

namespace Scriptlet

/-- A renaming of the names of a scope. -/
structure NameMap where
  map : String → String
  injective : ∀ {a b : String}, map a = map b → a = b
  this : map thisName = thisName

namespace NameMap

instance : CoeFun NameMap fun _ => String → String := ⟨NameMap.map⟩

/-- The renaming that changes no name. -/
def keep : NameMap := ⟨id, fun h => h, rfl⟩

@[simp] theorem keep_apply (name : String) : keep name = name := rfl

/-- The renaming that exchanges two names, neither of which is `this`. -/
def swap (x y : String) : NameMap :=
  if hxy : x ≠ thisName ∧ y ≠ thisName then
    { map := fun name => if name = x then y else if name = y then x else name
      injective := by
        intro a b h
        by_cases hax : a = x <;> by_cases hbx : b = x <;> by_cases hay : a = y <;> by_cases hby : b = y <;>
          simp_all
      this := by rw [if_neg (Ne.symm hxy.1), if_neg (Ne.symm hxy.2)] }
  else keep

theorem swap_left {x y : String} (hx : x ≠ thisName) (hy : y ≠ thisName) : swap x y x = y := by
  unfold swap
  rw [dif_pos ⟨hx, hy⟩]
  exact if_pos rfl

theorem swap_of_ne {x y name : String} (hx : name ≠ x) (hy : name ≠ y) : swap x y name = name := by
  unfold swap
  split
  · show (if name = x then y else if name = y then x else name) = name
    rw [if_neg hx, if_neg hy]
  · rfl

/-- What is filed under names, filed under the new names. -/
def onKeys {α : Type} (σ : NameMap) (entries : List (String × α)) : List (String × α) :=
  entries.map fun entry => (σ entry.1, entry.2)

theorem beq_map (σ : NameMap) (a b : String) : (σ a == σ b) = (a == b) := by
  by_cases h : a = b
  · rw [h, beq_self_eq_true, beq_self_eq_true]
  · rw [beq_false_of_ne h, beq_false_of_ne fun heq => h (σ.injective heq)]

theorem lookup_onKeys {α : Type} (σ : NameMap) (entries : List (String × α)) (name : String) :
    (σ.onKeys entries).lookup (σ name) = entries.lookup name := by
  induction entries with
  | nil => rfl
  | cons entry entries ih =>
      unfold onKeys at ih ⊢
      rw [List.map_cons, List.lookup_cons, List.lookup_cons, beq_map, ih]

@[simp] theorem onKeys_keep {α : Type} (entries : List (String × α)) : keep.onKeys entries = entries :=
  List.map_id entries

/-- The renaming of the scope at a distance; names of the global scope are kept. -/
def ofDistance (Φ : List NameMap) : Option Nat → NameMap
  | none => keep
  | some distance => Φ.getD distance keep

/-- The renaming of the innermost scope. -/
def innermost (Φ : List NameMap) : NameMap := Φ.headD keep

end NameMap

/-- How two programs may differ. -/
structure Variation where
  table : DistanceTable
  table' : DistanceTable
  /-- The renamings in use. -/
  maps : NameMap → Prop
  keep : maps .keep
  /-- The lines that stand for each other. -/
  lines : Nat → Nat → Prop

theorem Variation.maps_ofDistance (V : Variation) {Φ : List NameMap} (hΦ : ∀ σ ∈ Φ, V.maps σ) (distance : Option Nat) :
    V.maps (NameMap.ofDistance Φ distance) := by
  cases distance with
  | none => exact V.keep
  | some distance =>
      show V.maps (Φ.getD distance .keep)
      rw [List.getD_eq_getElem?_getD]
      cases hget : Φ[distance]? with
      | none => exact V.keep
      | some σ => exact hΦ σ (List.mem_of_getElem? hget)

/-- Operators alike. -/
structure Token.Alike (V : Variation) (t t' : Token) : Prop where
  kind : t'.kind = t.kind
  lexeme : t'.lexeme = t.lexeme
  line : V.lines t.line t'.line

/-- References alike: they lead to the same scope, by the name that this scope has for them. -/
structure Variation.Refers (V : Variation) (Φ : List NameMap) (id : NodeId) (name name' : Ident) :
    Prop where
  distance : V.table'.distance? id = V.table.distance? id
  spelling : name'.name = NameMap.ofDistance Φ (V.table.distance? id) name.name
  line : V.lines name.line name'.line

mutual
/-- Expressions alike. -/
inductive Expr.Alike (V : Variation) (Φ : List NameMap) : Expr → Expr → Prop where
  | lit (value : Literal) : Expr.Alike V Φ (.lit value) (.lit value)
  | group {a a' : Expr} : Expr.Alike V Φ a a' → Expr.Alike V Φ (.group a) (.group a')
  | unary {op op' : Token} {a a' : Expr} : op.Alike V op' → Expr.Alike V Φ a a' →
      Expr.Alike V Φ (.unary op a) (.unary op' a')
  | binary {op op' : Token} {a a' b b' : Expr} : op.Alike V op' → Expr.Alike V Φ a a' →
      Expr.Alike V Φ b b' → Expr.Alike V Φ (.binary op a b) (.binary op' a' b')
  | logical {op op' : Token} {a a' b b' : Expr} : op.Alike V op' → Expr.Alike V Φ a a' →
      Expr.Alike V Φ b b' → Expr.Alike V Φ (.logical op a b) (.logical op' a' b')
  | ternary {a a' b b' c c' : Expr} : Expr.Alike V Φ a a' → Expr.Alike V Φ b b' →
      Expr.Alike V Φ c c' → Expr.Alike V Φ (.ternary a b c) (.ternary a' b' c')
  | var {id : NodeId} {name name' : Ident} : V.Refers Φ id name name' →
      Expr.Alike V Φ (.var id name) (.var id name')
  | assign {id : NodeId} {name name' : Ident} {a a' : Expr} : V.Refers Φ id name name' →
      Expr.Alike V Φ a a' → Expr.Alike V Φ (.assign id name a) (.assign id name' a')
  | update {id : NodeId} {name name' : Ident} {op op' : Token} {a a' : Expr} :
      V.Refers Φ id name name' → op.Alike V op' → Expr.Alike V Φ a a' →
      Expr.Alike V Φ (.update id name op a) (.update id name' op' a')
  | this {id : NodeId} {line line' : Nat} : V.Refers Φ id ⟨thisName, line⟩ ⟨thisName, line'⟩ →
      Expr.Alike V Φ (.this id line) (.this id line')
  | array {es es' : List Expr} : Expr.AlikeAll V Φ es es' → Expr.Alike V Φ (.array es) (.array es')
  | index {a a' b b' : Expr} {line line' : Nat} : V.lines line line' → Expr.Alike V Φ a a' →
      Expr.Alike V Φ b b' → Expr.Alike V Φ (.index a line b) (.index a' line' b')
  | call {a a' : Expr} {line line' : Nat} {es es' : List Expr} : V.lines line line' →
      Expr.Alike V Φ a a' → Expr.AlikeAll V Φ es es' → Expr.Alike V Φ (.call a line es) (.call a' line' es')
  | get {a a' : Expr} {name : String} {line line' : Nat} : V.lines line line' → Expr.Alike V Φ a a' →
      Expr.Alike V Φ (.get a ⟨name, line⟩) (.get a' ⟨name, line'⟩)
  | set {a a' b b' : Expr} {name : String} {line line' : Nat} : V.lines line line' →
      Expr.Alike V Φ a a' → Expr.Alike V Φ b b' →
      Expr.Alike V Φ (.set a ⟨name, line⟩ b) (.set a' ⟨name, line'⟩ b')
/-- Lists of expressions alike. -/
inductive Expr.AlikeAll (V : Variation) (Φ : List NameMap) : List Expr → List Expr → Prop where
  | nil : Expr.AlikeAll V Φ [] []
  | cons {e e' : Expr} {es es' : List Expr} : Expr.Alike V Φ e e' → Expr.AlikeAll V Φ es es' →
      Expr.AlikeAll V Φ (e :: es) (e' :: es')
end

/-- Parameters alike. -/
def Variation.Parameters (σ : NameMap) (params params' : List Ident) : Prop :=
  params'.map Ident.name = params.map fun param => σ param.name

mutual
/-- Statements alike. -/
inductive Stmt.Alike (V : Variation) : List NameMap → Stmt → Stmt → Prop where
  | expr {Φ : List NameMap} {e e' : Expr} : e.Alike V Φ e' → Stmt.Alike V Φ (.expr e) (.expr e')
  | print {Φ : List NameMap} {e e' : Expr} : e.Alike V Φ e' → Stmt.Alike V Φ (.print e) (.print e')
  | var {Φ : List NameMap} {name name' : Ident} : name'.name = NameMap.innermost Φ name.name →
      Stmt.Alike V Φ (.var name none) (.var name' none)
  | init {Φ : List NameMap} {name name' : Ident} {e e' : Expr} :
      name'.name = NameMap.innermost Φ name.name → e.Alike V Φ e' →
      Stmt.Alike V Φ (.var name (some e)) (.var name' (some e'))
  | block {Φ : List NameMap} {σ : NameMap} {body body' : List Stmt} : V.maps σ →
      Stmt.AlikeAll V (σ :: Φ) body body' → Stmt.Alike V Φ (.block body) (.block body')
  | ifThen {Φ : List NameMap} {e e' : Expr} {a a' : Stmt} : e.Alike V Φ e' → Stmt.Alike V Φ a a' →
      Stmt.Alike V Φ (.ifElse e a none) (.ifElse e' a' none)
  | ifElse {Φ : List NameMap} {e e' : Expr} {a a' b b' : Stmt} : e.Alike V Φ e' →
      Stmt.Alike V Φ a a' → Stmt.Alike V Φ b b' →
      Stmt.Alike V Φ (.ifElse e a (some b)) (.ifElse e' a' (some b'))
  | whileLoop {Φ : List NameMap} {e e' : Expr} {a a' : Stmt} : e.Alike V Φ e' → Stmt.Alike V Φ a a' →
      Stmt.Alike V Φ (.whileLoop e a) (.whileLoop e' a')
  /-- The name of a function is printed, so it is never renamed. -/
  | function {Φ : List NameMap} {d d' : FunctionDecl} :
      NameMap.innermost Φ d.name.name = d.name.name → FunctionDecl.Alike V Φ d d' →
      Stmt.Alike V Φ (.function d) (.function d')
  | classDecl {Φ : List NameMap} {name : String} {line line' : Nat} {ds ds' : List FunctionDecl} :
      NameMap.innermost Φ name = name → V.lines line line' →
      FunctionDecl.AlikeAll V (.keep :: Φ) ds ds' →
      Stmt.Alike V Φ (.classDecl ⟨name, line⟩ ds) (.classDecl ⟨name, line'⟩ ds')
  | ret {Φ : List NameMap} (line line' : Nat) : Stmt.Alike V Φ (.ret line none) (.ret line' none)
  | value {Φ : List NameMap} {line line' : Nat} {e e' : Expr} : e.Alike V Φ e' →
      Stmt.Alike V Φ (.ret line (some e)) (.ret line' (some e'))
/-- Lists of statements alike. -/
inductive Stmt.AlikeAll (V : Variation) : List NameMap → List Stmt → List Stmt → Prop where
  | nil {Φ : List NameMap} : Stmt.AlikeAll V Φ [] []
  | cons {Φ : List NameMap} {s s' : Stmt} {ss ss' : List Stmt} : Stmt.Alike V Φ s s' →
      Stmt.AlikeAll V Φ ss ss' → Stmt.AlikeAll V Φ (s :: ss) (s' :: ss')
/-- Functions alike. -/
inductive FunctionDecl.Alike (V : Variation) : List NameMap → FunctionDecl → FunctionDecl → Prop where
  | mk {Φ : List NameMap} {σ : NameMap} {name name' : Ident} {params params' : List Ident}
      {body body' : List Stmt} : name'.name = name.name → V.maps σ →
      Variation.Parameters σ params params' → Stmt.AlikeAll V (σ :: Φ) body body' →
      FunctionDecl.Alike V Φ (.mk name params body) (.mk name' params' body')
/-- Lists of functions alike. -/
inductive FunctionDecl.AlikeAll (V : Variation) : List NameMap → List FunctionDecl → List FunctionDecl →
    Prop where
  | nil {Φ : List NameMap} : FunctionDecl.AlikeAll V Φ [] []
  | cons {Φ : List NameMap} {d d' : FunctionDecl} {ds ds' : List FunctionDecl} :
      FunctionDecl.Alike V Φ d d' → FunctionDecl.AlikeAll V Φ ds ds' →
      FunctionDecl.AlikeAll V Φ (d :: ds) (d' :: ds')
end

/-! ## Likeness of a tree to itself on other lines -/

/-- The renamings change no name. -/
def NameMap.Keeping (Φ : List NameMap) : Prop := ∀ σ ∈ Φ, σ = keep

namespace NameMap

variable {Φ : List NameMap}

theorem Keeping.nil : Keeping [] := nofun

theorem Keeping.cons (h : Keeping Φ) : Keeping (keep :: Φ) := by
  intro σ hσ
  rcases List.mem_cons.mp hσ with rfl | hσ
  · rfl
  · exact h σ hσ

theorem Keeping.ofDistance (h : Keeping Φ) (distance : Option Nat) : ofDistance Φ distance = keep := by
  cases distance with
  | none => rfl
  | some distance =>
      show Φ.getD distance keep = keep
      rw [List.getD_eq_getElem?_getD]
      cases hget : Φ[distance]? with
      | none => rfl
      | some σ => exact h σ (List.mem_of_getElem? hget)

theorem Keeping.innermost (h : Keeping Φ) : innermost Φ = keep := by
  cases Φ with
  | nil => rfl
  | cons σ Φ => exact h σ List.mem_cons_self

end NameMap

/-- The tables agree on references, and every line stands for its image. -/
structure Variation.Agrees (V : Variation) (f : Nat → Nat) (refs : List Reference) : Prop where
  table : ∀ r ∈ refs, V.table'.distance? r.id = V.table.distance? r.id
  lines : ∀ line, V.lines line (f line)

namespace Variation.Agrees

variable {V : Variation} {f : Nat → Nat} {refs refs' : List Reference}

theorem left (h : V.Agrees f (refs ++ refs')) : V.Agrees f refs :=
  ⟨fun r hr => h.table r (List.mem_append_left _ hr), h.lines⟩

theorem right (h : V.Agrees f (refs ++ refs')) : V.Agrees f refs' :=
  ⟨fun r hr => h.table r (List.mem_append_right _ hr), h.lines⟩

theorem tail {r : Reference} (h : V.Agrees f (r :: refs)) : V.Agrees f refs :=
  ⟨fun r hr => h.table r (List.mem_cons_of_mem _ hr), h.lines⟩

theorem refers {Φ : List NameMap} {r : Reference} {name : Ident} (h : V.Agrees f (r :: refs))
    (hΦ : NameMap.Keeping Φ) : V.Refers Φ r.id name (name.mapLine f) := by
  refine ⟨h.table r List.mem_cons_self, ?_, h.lines _⟩
  rw [hΦ.ofDistance, NameMap.keep_apply]
  rfl

theorem token (h : V.Agrees f refs) (t : Token) : t.Alike V (t.mapLine f) := ⟨rfl, rfl, h.lines _⟩

end Variation.Agrees

mutual
theorem Expr.Alike.mapLines {V : Variation} {Φ : List NameMap} {f : Nat → Nat} (hΦ : NameMap.Keeping Φ) :
    ∀ {e : Expr}, V.Agrees f e.references → e.Alike V Φ (e.mapLines f)
  | .lit value, _ => .lit value
  | .group _, h => .group (.mapLines hΦ h)
  | .unary op _, h => .unary (h.token op) (.mapLines hΦ h)
  | .binary op _ _, h => .binary (h.token op) (.mapLines hΦ h.left) (.mapLines hΦ h.right)
  | .logical op _ _, h => .logical (h.token op) (.mapLines hΦ h.left) (.mapLines hΦ h.right)
  | .ternary _ _ _, h => .ternary (.mapLines hΦ h.left.left) (.mapLines hΦ h.left.right) (.mapLines hΦ h.right)
  | .var _ _, h => .var (h.refers hΦ)
  | .assign _ _ _, h => .assign (h.refers hΦ) (.mapLines hΦ h.tail)
  | .update _ _ op _, h => .update (h.refers hΦ) (h.token op) (.mapLines hΦ h.tail)
  | .this _ _, h => .this (h.refers hΦ)
  | .array _, h => .array (.mapLines hΦ h)
  | .index _ _ _, h => .index (h.lines _) (.mapLines hΦ h.left) (.mapLines hΦ h.right)
  | .call _ _ _, h => .call (h.lines _) (.mapLines hΦ h.left) (.mapLines hΦ h.right)
  | .get _ _, h => .get (h.lines _) (.mapLines hΦ h)
  | .set _ _ _, h => .set (h.lines _) (.mapLines hΦ h.left) (.mapLines hΦ h.right)
theorem Expr.AlikeAll.mapLines {V : Variation} {Φ : List NameMap} {f : Nat → Nat} (hΦ : NameMap.Keeping Φ) :
    ∀ {es : List Expr}, V.Agrees f (Expr.referencesAll es) → Expr.AlikeAll V Φ es (Expr.mapLinesAll f es)
  | [], _ => .nil
  | _ :: _, h => .cons (.mapLines hΦ h.left) (.mapLines hΦ h.right)
end

theorem Variation.Parameters.mapLine (f : Nat → Nat) (params : List Ident) :
    Parameters .keep params (params.map (Ident.mapLine f)) :=
  List.map_map

theorem Stmt.innermost_mapLine {Φ : List NameMap} (hΦ : NameMap.Keeping Φ) (f : Nat → Nat) (name : Ident) :
    (name.mapLine f).name = NameMap.innermost Φ name.name := by
  rw [hΦ.innermost, NameMap.keep_apply]
  rfl

mutual
theorem Stmt.Alike.mapLines {V : Variation} {f : Nat → Nat} : ∀ {Φ : List NameMap} {s : Stmt},
    NameMap.Keeping Φ → V.Agrees f s.references → s.Alike V Φ (s.mapLines f)
  | _, .expr _, hΦ, h => .expr (.mapLines hΦ h)
  | _, .print _, hΦ, h => .print (.mapLines hΦ h)
  | _, .var name none, hΦ, _ => .var (Stmt.innermost_mapLine hΦ f name)
  | _, .var name (some _), hΦ, h => .init (Stmt.innermost_mapLine hΦ f name) (.mapLines hΦ h)
  | _, .block _, hΦ, h => .block V.keep (.mapLines hΦ.cons h)
  | _, .ifElse _ _ none, hΦ, h => .ifThen (.mapLines hΦ h.left) (.mapLines hΦ h.right)
  | _, .ifElse _ _ (some _), hΦ, h =>
      .ifElse (.mapLines hΦ h.left.left) (.mapLines hΦ h.left.right) (.mapLines hΦ h.right)
  | _, .whileLoop _ _, hΦ, h => .whileLoop (.mapLines hΦ h.left) (.mapLines hΦ h.right)
  | _, .function decl, hΦ, h => .function (Stmt.innermost_mapLine hΦ f decl.name).symm (.mapLines hΦ h)
  | _, .classDecl name _, hΦ, h =>
      .classDecl (Stmt.innermost_mapLine hΦ f name).symm (h.lines _) (.mapLines hΦ.cons h)
  | _, .ret line none, _, _ => .ret line (f line)
  | _, .ret _ (some _), hΦ, h => .value (.mapLines hΦ h)
/-- **A program is like itself on other lines**, under tables that agree on its references. -/
theorem Stmt.AlikeAll.mapLines {V : Variation} {f : Nat → Nat} : ∀ {Φ : List NameMap} {ss : List Stmt},
    NameMap.Keeping Φ → V.Agrees f (Stmt.referencesAll ss) → Stmt.AlikeAll V Φ ss (Stmt.mapLinesAll f ss)
  | _, [], _, _ => .nil
  | _, _ :: _, hΦ, h => .cons (.mapLines hΦ h.left) (.mapLines hΦ h.right)
theorem FunctionDecl.Alike.mapLines {V : Variation} {f : Nat → Nat} : ∀ {Φ : List NameMap} {d : FunctionDecl},
    NameMap.Keeping Φ → V.Agrees f d.references → d.Alike V Φ (d.mapLines f)
  | _, .mk _ params _, hΦ, h => .mk rfl V.keep (.mapLine f params) (.mapLines hΦ.cons h)
theorem FunctionDecl.AlikeAll.mapLines {V : Variation} {f : Nat → Nat} :
    ∀ {Φ : List NameMap} {ds : List FunctionDecl}, NameMap.Keeping Φ →
      V.Agrees f (FunctionDecl.referencesAll ds) → FunctionDecl.AlikeAll V Φ ds (FunctionDecl.mapLinesAll f ds)
  | _, [], _, _ => .nil
  | _, _ :: _, hΦ, h => .cons (.mapLines hΦ h.left) (.mapLines hΦ h.right)
end

section Refl

variable {V : Variation} {Φ : List NameMap} (hΦ : NameMap.Keeping Φ)
include hΦ

theorem Expr.Alike.refl {e : Expr} (h : V.Agrees id e.references) : e.Alike V Φ e := by
  have hself := Expr.Alike.mapLines hΦ h
  rwa [e.mapLines_id] at hself

theorem Stmt.Alike.refl {s : Stmt} (h : V.Agrees id s.references) : s.Alike V Φ s := by
  have hself := Stmt.Alike.mapLines hΦ h
  rwa [s.mapLines_id] at hself

/-- **A program is like itself** under tables that agree on its references. -/
theorem Stmt.AlikeAll.refl {ss : List Stmt} (h : V.Agrees id (Stmt.referencesAll ss)) :
    Stmt.AlikeAll V Φ ss ss := by
  have hself := Stmt.AlikeAll.mapLines hΦ h
  rwa [Stmt.mapLinesAll_id ss] at hself

theorem FunctionDecl.Alike.refl {d : FunctionDecl} (h : V.Agrees id d.references) : d.Alike V Φ d := by
  have hself := FunctionDecl.Alike.mapLines hΦ h
  rwa [d.mapLines_id] at hself

theorem FunctionDecl.AlikeAll.refl {ds : List FunctionDecl} (h : V.Agrees id (FunctionDecl.referencesAll ds)) :
    FunctionDecl.AlikeAll V Φ ds ds := by
  have hself := FunctionDecl.AlikeAll.mapLines hΦ h
  rwa [FunctionDecl.mapLinesAll_id ds] at hself

end Refl

/-! ## Weaker variations -/

/-- What is alike under a variation is alike under another one. -/
structure Variation.Implies (V W : Variation) : Prop where
  refers : ∀ {Φ : List NameMap} {id : NodeId} {name name' : Ident}, V.Refers Φ id name name' →
    W.Refers Φ id name name'
  maps : ∀ {σ : NameMap}, V.maps σ → W.maps σ
  lines : ∀ {line line' : Nat}, V.lines line line' → W.lines line line'

theorem Token.Alike.imp {V W : Variation} (hVW : V.Implies W) {t t' : Token} (h : t.Alike V t') :
    t.Alike W t' :=
  ⟨h.kind, h.lexeme, hVW.lines h.line⟩

mutual
theorem Expr.Alike.imp {V W : Variation} {Φ : List NameMap} (hVW : V.Implies W) :
    ∀ {e e' : Expr}, e.Alike V Φ e' → e.Alike W Φ e'
  | _, _, .lit value => .lit value
  | _, _, .group h => .group (h.imp hVW)
  | _, _, .unary hop h => .unary (hop.imp hVW) (h.imp hVW)
  | _, _, .binary hop ha hb => .binary (hop.imp hVW) (ha.imp hVW) (hb.imp hVW)
  | _, _, .logical hop ha hb => .logical (hop.imp hVW) (ha.imp hVW) (hb.imp hVW)
  | _, _, .ternary ha hb hc => .ternary (ha.imp hVW) (hb.imp hVW) (hc.imp hVW)
  | _, _, .var h => .var (hVW.refers h)
  | _, _, .assign h ha => .assign (hVW.refers h) (ha.imp hVW)
  | _, _, .update h hop ha => .update (hVW.refers h) (hop.imp hVW) (ha.imp hVW)
  | _, _, .this h => .this (hVW.refers h)
  | _, _, .array h => .array (h.imp hVW)
  | _, _, .index hl ha hb => .index (hVW.lines hl) (ha.imp hVW) (hb.imp hVW)
  | _, _, .call hl ha hes => .call (hVW.lines hl) (ha.imp hVW) (hes.imp hVW)
  | _, _, .get hl h => .get (hVW.lines hl) (h.imp hVW)
  | _, _, .set hl ha hb => .set (hVW.lines hl) (ha.imp hVW) (hb.imp hVW)
theorem Expr.AlikeAll.imp {V W : Variation} {Φ : List NameMap} (hVW : V.Implies W) :
    ∀ {es es' : List Expr}, Expr.AlikeAll V Φ es es' → Expr.AlikeAll W Φ es es'
  | _, _, .nil => .nil
  | _, _, .cons h hs => .cons (h.imp hVW) (hs.imp hVW)
end

mutual
theorem Stmt.Alike.imp {V W : Variation} (hVW : V.Implies W) : ∀ {Φ : List NameMap} {s s' : Stmt},
    s.Alike V Φ s' → s.Alike W Φ s'
  | _, _, _, .expr h => .expr (h.imp hVW)
  | _, _, _, .print h => .print (h.imp hVW)
  | _, _, _, .var hname => .var hname
  | _, _, _, .init hname h => .init hname (h.imp hVW)
  | _, _, _, .block hσ h => .block (hVW.maps hσ) (h.imp hVW)
  | _, _, _, .ifThen he ha => .ifThen (he.imp hVW) (ha.imp hVW)
  | _, _, _, .ifElse he ha hb => .ifElse (he.imp hVW) (ha.imp hVW) (hb.imp hVW)
  | _, _, _, .whileLoop he ha => .whileLoop (he.imp hVW) (ha.imp hVW)
  | _, _, _, .function hname h => .function hname (h.imp hVW)
  | _, _, _, .classDecl hname hl hds => .classDecl hname (hVW.lines hl) (hds.imp hVW)
  | _, _, _, .ret line line' => .ret line line'
  | _, _, _, .value h => .value (h.imp hVW)
theorem Stmt.AlikeAll.imp {V W : Variation} (hVW : V.Implies W) :
    ∀ {Φ : List NameMap} {ss ss' : List Stmt}, Stmt.AlikeAll V Φ ss ss' → Stmt.AlikeAll W Φ ss ss'
  | _, _, _, .nil => .nil
  | _, _, _, .cons h hs => .cons (h.imp hVW) (hs.imp hVW)
theorem FunctionDecl.Alike.imp {V W : Variation} (hVW : V.Implies W) :
    ∀ {Φ : List NameMap} {d d' : FunctionDecl}, d.Alike V Φ d' → d.Alike W Φ d'
  | _, _, _, .mk hname hσ hparams h => .mk hname (hVW.maps hσ) hparams (h.imp hVW)
theorem FunctionDecl.AlikeAll.imp {V W : Variation} (hVW : V.Implies W) :
    ∀ {Φ : List NameMap} {ds ds' : List FunctionDecl}, FunctionDecl.AlikeAll V Φ ds ds' →
      FunctionDecl.AlikeAll W Φ ds ds'
  | _, _, _, .nil => .nil
  | _, _, _, .cons h hs => .cons (h.imp hVW) (hs.imp hVW)
end

/-! ## Parts of trees alike -/

theorem FunctionDecl.Alike.name {V : Variation} {Φ : List NameMap} {d d' : FunctionDecl}
    (h : d.Alike V Φ d') : d'.name.name = d.name.name := by
  cases h with
  | mk hname => exact hname

theorem FunctionDecl.Alike.arity {V : Variation} {Φ : List NameMap} {d d' : FunctionDecl}
    (h : d.Alike V Φ d') : d'.arity = d.arity := by
  cases h with
  | @mk _ _ _ _ params params' _ _ _ _ hparams _ =>
      have hlen := congrArg List.length hparams
      rw [List.length_map, List.length_map] at hlen
      exact hlen

end Scriptlet
