import Scriptlet.Proofs.Alike.Resolve
import Scriptlet.Proofs.Scoping.Declared

/-!
# Renaming a local variable

A local variable is renamed together with the references that lead to it, which are the references of its name whose
scope distance leads to its scope.

* `LocalRenaming` — the old and the new name, and the table that says where references lead.
* `LocalRenaming.stmts R depth` — the renaming inside the scope of the variable; `depth` is the number of scopes in
  between.
* `LocalRenaming.InStmts R p p'` — the program `p'` is `p` with one local variable renamed: a variable of a block, or a
  parameter or variable of a function.

Principal result: `LocalRenaming.InStmts.alike` — the two programs are alike.
-/

set_option autoImplicit false

namespace Scriptlet

/-- A new name for a local variable. -/
structure LocalRenaming where
  /-- Where references lead. -/
  table : DistanceTable
  old : String
  new : String

namespace LocalRenaming

/-- The new name in place of the old one. -/
def rename (R : LocalRenaming) (name : Ident) : Ident := if name.name = R.old then ⟨R.new, name.line⟩ else name

/-- A declared name; only the scope of the variable itself is concerned. -/
def declare (R : LocalRenaming) (depth : Nat) (name : Ident) : Ident := if depth = 0 then R.rename name else name

/-- The name of a reference; only those that lead to the scope of the variable are concerned. -/
def refer (R : LocalRenaming) (depth : Nat) (id : NodeId) (name : Ident) : Ident :=
  if R.table.distance? id = some depth then R.rename name else name

mutual
/-- Renames in an expression. -/
def expr (R : LocalRenaming) (depth : Nat) : Expr → Expr
  | .lit value => .lit value
  | .group inner => .group (R.expr depth inner)
  | .unary op operand => .unary op (R.expr depth operand)
  | .binary op left right => .binary op (R.expr depth left) (R.expr depth right)
  | .logical op left right => .logical op (R.expr depth left) (R.expr depth right)
  | .ternary test whenTrue whenFalse =>
      .ternary (R.expr depth test) (R.expr depth whenTrue) (R.expr depth whenFalse)
  | .var id name => .var id (R.refer depth id name)
  | .assign id name value => .assign id (R.refer depth id name) (R.expr depth value)
  | .update id name op operand => .update id (R.refer depth id name) op (R.expr depth operand)
  | .this id line => .this id line
  | .array items => .array (R.exprs depth items)
  | .index target line position => .index (R.expr depth target) line (R.expr depth position)
  | .call callee line args => .call (R.expr depth callee) line (R.exprs depth args)
  | .get object name => .get (R.expr depth object) name
  | .set object name value => .set (R.expr depth object) name (R.expr depth value)
/-- Renames in expressions. -/
def exprs (R : LocalRenaming) (depth : Nat) : List Expr → List Expr
  | [] => []
  | e :: rest => R.expr depth e :: R.exprs depth rest
end

mutual
/-- Renames in a statement. -/
def stmt (R : LocalRenaming) (depth : Nat) : Stmt → Stmt
  | .expr e => .expr (R.expr depth e)
  | .print e => .print (R.expr depth e)
  | .var name init => .var (R.declare depth name) (init.map (R.expr depth))
  | .block body => .block (R.stmts (depth + 1) body)
  | .ifElse test whenTrue none => .ifElse (R.expr depth test) (R.stmt depth whenTrue) none
  | .ifElse test whenTrue (some whenFalse) =>
      .ifElse (R.expr depth test) (R.stmt depth whenTrue) (some (R.stmt depth whenFalse))
  | .whileLoop test body => .whileLoop (R.expr depth test) (R.stmt depth body)
  | .function decl => .function (R.function (depth + 1) decl)
  | .classDecl name methods => .classDecl name (R.functions (depth + 2) methods)
  | .ret line value => .ret line (value.map (R.expr depth))
/-- Renames in statements. -/
def stmts (R : LocalRenaming) (depth : Nat) : List Stmt → List Stmt
  | [] => []
  | s :: rest => R.stmt depth s :: R.stmts depth rest
/-- Renames in a function; the depth is that of its body. -/
def function (R : LocalRenaming) (depth : Nat) : FunctionDecl → FunctionDecl
  | .mk name params body => .mk name (params.map (R.declare depth)) (R.stmts depth body)
/-- Renames in functions. -/
def functions (R : LocalRenaming) (depth : Nat) : List FunctionDecl → List FunctionDecl
  | [] => []
  | d :: rest => R.function depth d :: R.functions depth rest
end

mutual
/-- A statement in which one local variable is renamed. -/
inductive InStmt (R : LocalRenaming) : Stmt → Stmt → Prop where
  /-- A variable of the block itself. -/
  | block {body : List Stmt} : (R.old, true) ∈ Stmt.declaredAll body →
      InStmt R (.block body) (.block (R.stmts 0 body))
  | inBlock {body body' : List Stmt} : InStmts R body body' → InStmt R (.block body) (.block body')
  | inThen {test : Expr} {whenTrue whenTrue' : Stmt} {whenFalse : Option Stmt} : InStmt R whenTrue whenTrue' →
      InStmt R (.ifElse test whenTrue whenFalse) (.ifElse test whenTrue' whenFalse)
  | inElse {test : Expr} {whenTrue whenFalse whenFalse' : Stmt} : InStmt R whenFalse whenFalse' →
      InStmt R (.ifElse test whenTrue (some whenFalse)) (.ifElse test whenTrue (some whenFalse'))
  | inLoop {test : Expr} {body body' : Stmt} : InStmt R body body' →
      InStmt R (.whileLoop test body) (.whileLoop test body')
  | inFunction {d d' : FunctionDecl} : InFunction R d d' → InStmt R (.function d) (.function d')
  | inClass {name : Ident} {ds ds' : List FunctionDecl} : InFunctions R ds ds' →
      InStmt R (.classDecl name ds) (.classDecl name ds')
/-- Statements in which one local variable is renamed. -/
inductive InStmts (R : LocalRenaming) : List Stmt → List Stmt → Prop where
  | head {s s' : Stmt} {ss : List Stmt} : InStmt R s s' → InStmts R (s :: ss) (s' :: ss)
  | tail {s : Stmt} {ss ss' : List Stmt} : InStmts R ss ss' → InStmts R (s :: ss) (s :: ss')
/-- A function in which one local variable is renamed. -/
inductive InFunction (R : LocalRenaming) : FunctionDecl → FunctionDecl → Prop where
  /-- A parameter or a variable of the function itself. -/
  | scope {d : FunctionDecl} : (R.old, true) ∈ d.declared → InFunction R d (R.function 0 d)
  | inBody {name : Ident} {params : List Ident} {body body' : List Stmt} : InStmts R body body' →
      InFunction R (.mk name params body) (.mk name params body')
/-- Functions in one of which a local variable is renamed. -/
inductive InFunctions (R : LocalRenaming) : List FunctionDecl → List FunctionDecl → Prop where
  | head {d d' : FunctionDecl} {ds : List FunctionDecl} : InFunction R d d' →
      InFunctions R (d :: ds) (d' :: ds)
  | tail {d : FunctionDecl} {ds ds' : List FunctionDecl} : InFunctions R ds ds' →
      InFunctions R (d :: ds) (d :: ds')
end

/-! ## The renamings of scopes -/

/-- The renaming of the scope of the variable. -/
def swap (R : LocalRenaming) : NameMap := .swap R.old R.new

/-- The two programs differ in the names of one scope. -/
def variation (R : LocalRenaming) : Variation where
  table := R.table
  table' := R.table
  maps := fun σ => σ = .keep ∨ σ = R.swap
  keep := .inl rfl
  lines := Eq

/-- The scope at a depth is that of the variable, all others keep their names. -/
def Marks (R : LocalRenaming) (depth : Nat) (Φ : List NameMap) : Prop :=
  ∀ distance, Φ.getD distance .keep = if distance = depth then R.swap else .keep

/-- Neither name is spelled `this`. -/
structure Proper (R : LocalRenaming) : Prop where
  old : R.old ≠ thisName
  new : R.new ≠ thisName

section Marks

variable {R : LocalRenaming} {depth : Nat} {Φ : List NameMap} {name : Ident}

theorem Marks.cons (h : R.Marks depth Φ) : R.Marks (depth + 1) (.keep :: Φ) := by
  intro distance
  cases distance with
  | zero => rfl
  | succ distance => simpa using h distance

theorem marks_zero (h : NameMap.Keeping Φ) : R.Marks 0 (R.swap :: Φ) := by
  intro distance
  cases distance with
  | zero => rfl
  | succ distance => exact h.ofDistance (some distance)

theorem Marks.innermost (h : R.Marks depth Φ) :
    NameMap.innermost Φ = if depth = 0 then R.swap else .keep := by
  have hzero := h 0
  cases Φ <;> simpa [NameMap.innermost, eq_comm] using hzero

theorem line_rename (R : LocalRenaming) (name : Ident) : (R.rename name).line = name.line := by
  unfold rename
  split <;> rfl

theorem name_rename (hR : R.Proper) (hname : name.name ≠ R.new) : (R.rename name).name = R.swap name.name := by
  unfold rename swap
  split
  · rename_i hold
    rw [hold, NameMap.swap_left hR.old hR.new]
  · rename_i hold
    rw [NameMap.swap_of_ne hold hname]

/-- Declared names are renamed like the innermost scope. -/
theorem name_declare (hR : R.Proper) (h : R.Marks depth Φ) (hname : name.name ≠ R.new) :
    (R.declare depth name).name = NameMap.innermost Φ name.name := by
  rw [h.innermost]
  unfold declare
  split
  · exact name_rename hR hname
  · rfl

/-- References are renamed like the scope they lead to. -/
theorem refers (hR : R.Proper) (h : R.Marks depth Φ) {id : NodeId} (hname : name.name ≠ R.new) :
    R.variation.Refers Φ id name (R.refer depth id name) := by
  refine ⟨rfl, ?_, ?_⟩
  · show (R.refer depth id name).name = NameMap.ofDistance Φ (R.table.distance? id) name.name
    unfold refer
    cases R.table.distance? id with
    | none => rfl
    | some distance =>
        rw [NameMap.ofDistance, h distance]
        by_cases hd : distance = depth
        · rw [if_pos hd, if_pos (congrArg some hd), name_rename hR hname]
        · rw [if_neg hd, if_neg fun heq => hd (Option.some.inj heq)]
          rfl
  · show name.line = (R.refer depth id name).line
    unfold refer
    split
    · exact (R.line_rename name).symm
    · rfl

theorem token (R : LocalRenaming) (t : Token) : t.Alike R.variation t := ⟨rfl, rfl, rfl⟩

end Marks

/-! ## Inside the scope of the variable -/

/-- The new name does not occur in a walk. -/
def Fresh (R : LocalRenaming) (steps : List ResolveStep) : Prop := ∀ step ∈ steps, step.name? ≠ some R.new

section Fresh

variable {R : LocalRenaming} {as bs : List ResolveStep} {step : ResolveStep}

theorem Fresh.left (h : R.Fresh (as ++ bs)) : R.Fresh as := fun step hstep => h step (List.mem_append_left _ hstep)

theorem Fresh.right (h : R.Fresh (as ++ bs)) : R.Fresh bs := fun step hstep => h step (List.mem_append_right _ hstep)

theorem Fresh.tail (h : R.Fresh (step :: as)) : R.Fresh as := fun s hs => h s (List.mem_cons_of_mem _ hs)

theorem Fresh.name {name : String} (h : R.Fresh (step :: as)) (hstep : step.name? = some name) :
    name ≠ R.new := by
  rintro rfl
  exact h step List.mem_cons_self hstep

theorem Fresh.parameters : ∀ {params : List Ident}, R.Fresh (params.flatMap ResolveStep.introduce) →
    ∀ param ∈ params, param.name ≠ R.new
  | [], _, _, hparam => by cases hparam
  | first :: params, h, param, hparam => by
      rw [List.flatMap_cons] at h
      rcases List.mem_cons.mp hparam with rfl | hparam
      · exact h.left.name rfl
      · exact h.right.parameters param hparam

end Fresh

mutual
theorem alike_expr {R : LocalRenaming} {site : Site} {depth : Nat} {Φ : List NameMap} (hR : R.Proper)
    (hΦ : R.Marks depth Φ) : ∀ {e : Expr}, R.Fresh (e.steps site) → e.Alike R.variation Φ (R.expr depth e)
  | .lit value, _ => .lit value
  | .group _, h => .group (alike_expr hR hΦ h)
  | .unary op _, h => .unary (R.token op) (alike_expr hR hΦ h)
  | .binary op _ _, h => .binary (R.token op) (alike_expr hR hΦ h.left) (alike_expr hR hΦ h.right)
  | .logical op _ _, h => .logical (R.token op) (alike_expr hR hΦ h.left) (alike_expr hR hΦ h.right)
  | .ternary _ _ _, h =>
      .ternary (alike_expr hR hΦ h.left.left) (alike_expr hR hΦ h.left.right) (alike_expr hR hΦ h.right)
  | .var _ _, h => .var (refers hR hΦ (h.name rfl))
  | .assign _ _ _, h => .assign (refers hR hΦ (h.right.name rfl)) (alike_expr hR hΦ h.left)
  | .update _ _ op _, h =>
      .update (refers hR hΦ (h.right.name rfl)) (R.token op) (alike_expr hR hΦ h.left)
  | .this _ _, _ => by
      refine .this ⟨rfl, ?_, rfl⟩
      exact (NameMap.this _).symm
  | .array _, h => .array (alike_exprs hR hΦ h)
  | .index _ _ _, h => .index rfl (alike_expr hR hΦ h.left) (alike_expr hR hΦ h.right)
  | .call _ _ _, h => .call rfl (alike_expr hR hΦ h.left) (alike_exprs hR hΦ h.right)
  | .get _ _, h => .get rfl (alike_expr hR hΦ h)
  | .set _ _ _, h => .set rfl (alike_expr hR hΦ h.right) (alike_expr hR hΦ h.left)
theorem alike_exprs {R : LocalRenaming} {site : Site} {depth : Nat} {Φ : List NameMap} (hR : R.Proper)
    (hΦ : R.Marks depth Φ) : ∀ {es : List Expr}, R.Fresh (Expr.stepsAll site es) →
    Expr.AlikeAll R.variation Φ es (R.exprs depth es)
  | [], _ => .nil
  | _ :: _, h => .cons (alike_expr hR hΦ h.left) (alike_exprs hR hΦ h.right)
end

/-- The functions and classes of the scope are not named like the variable. -/
def Apart (R : LocalRenaming) (depth : Nat) (declared : List (String × Bool)) : Prop :=
  depth = 0 → (R.old, false) ∉ declared

/-- The name of a function or class is not renamed. -/
theorem Apart.fixed {R : LocalRenaming} {depth : Nat} {Φ : List NameMap} {name : String} {rest : List (String × Bool)}
    (hΦ : R.Marks depth Φ) (h : R.Apart depth ((name, false) :: rest)) (hnew : name ≠ R.new) :
    NameMap.innermost Φ name = name := by
  rw [hΦ.innermost]
  split
  · rename_i hdepth
    have hold : name ≠ R.old := by
      rintro rfl
      exact h hdepth List.mem_cons_self
    exact NameMap.swap_of_ne hold hnew
  · rfl

theorem apart_succ (R : LocalRenaming) (depth : Nat) (declared : List (String × Bool)) :
    R.Apart (depth + 1) declared := nofun

theorem Apart.left {R : LocalRenaming} {depth : Nat} {as bs : List (String × Bool)} (h : R.Apart depth (as ++ bs)) :
    R.Apart depth as := fun hd hmem => h hd (List.mem_append_left _ hmem)

theorem Apart.right {R : LocalRenaming} {depth : Nat} {as bs : List (String × Bool)} (h : R.Apart depth (as ++ bs)) :
    R.Apart depth bs := fun hd hmem => h hd (List.mem_append_right _ hmem)

mutual
theorem alike_stmt {R : LocalRenaming} (hR : R.Proper) : ∀ {site : Site} {depth : Nat} {Φ : List NameMap}
    {s : Stmt}, R.Marks depth Φ → R.Apart depth s.declared → R.Fresh (s.steps site) →
    s.Alike R.variation Φ (R.stmt depth s)
  | _, _, _, .expr _, hΦ, _, h => .expr (alike_expr hR hΦ h)
  | _, _, _, .print _, hΦ, _, h => .print (alike_expr hR hΦ h)
  | _, _, _, .var _ none, hΦ, _, h => .var (name_declare hR hΦ (h.name rfl))
  | _, _, _, .var _ (some _), hΦ, _, h =>
      .init (name_declare hR hΦ (h.name rfl)) (alike_expr hR hΦ h.tail.left)
  | _, _, _, .block _, hΦ, _, h =>
      .block (.inl rfl) (alike_stmts hR hΦ.cons (R.apart_succ _ _) h.tail.left)
  | _, _, _, .ifElse _ _ none, hΦ, ha, h =>
      .ifThen (alike_expr hR hΦ h.left) (alike_stmt hR hΦ ha h.right)
  | _, _, _, .ifElse _ _ (some _), hΦ, ha, h =>
      .ifElse (alike_expr hR hΦ h.left.left) (alike_stmt hR hΦ ha.left h.left.right)
        (alike_stmt hR hΦ ha.right h.right)
  | _, _, _, .whileLoop _ _, hΦ, ha, h => .whileLoop (alike_expr hR hΦ h.left) (alike_stmt hR hΦ ha h.right)
  | _, _, _, .function _, hΦ, ha, h =>
      .function (ha.fixed hΦ (h.left.name rfl))
        (alike_function hR (.inl rfl) hΦ.cons (R.apart_succ _ _) h.right)
  | _, _, _, .classDecl _ _, hΦ, ha, h =>
      .classDecl (ha.fixed hΦ (h.left.name rfl)) rfl (alike_functions hR hΦ.cons h.right.tail.left)
  | _, _, _, .ret line none, _, _, _ => .ret line line
  | _, _, _, .ret _ (some _), hΦ, _, h => .value (alike_expr hR hΦ h.right)
theorem alike_stmts {R : LocalRenaming} (hR : R.Proper) : ∀ {site : Site} {depth : Nat} {Φ : List NameMap}
    {ss : List Stmt}, R.Marks depth Φ → R.Apart depth (Stmt.declaredAll ss) →
    R.Fresh (Stmt.stepsAll site ss) → Stmt.AlikeAll R.variation Φ ss (R.stmts depth ss)
  | _, _, _, [], _, _, _ => .nil
  | _, _, _, _ :: _, hΦ, ha, h => .cons (alike_stmt hR hΦ ha.left h.left) (alike_stmts hR hΦ ha.right h.right)
theorem alike_function {R : LocalRenaming} (hR : R.Proper) : ∀ {site : Site} {depth : Nat} {Φ : List NameMap}
    {σ : NameMap} {d : FunctionDecl}, R.variation.maps σ → R.Marks depth (σ :: Φ) → R.Apart depth d.declared →
    R.Fresh (d.steps site) → d.Alike R.variation Φ (R.function depth d)
  | _, depth, _, σ, .mk _ params _, hσ, hΦ, ha, h => by
      refine .mk rfl hσ ?_ (alike_stmts hR hΦ ha.right h.tail.left.right)
      show (params.map (R.declare depth)).map Ident.name = params.map fun param => σ param.name
      rw [List.map_map]
      refine List.map_congr_left fun param hparam => ?_
      exact name_declare hR hΦ (h.tail.left.left.parameters param hparam)
theorem alike_functions {R : LocalRenaming} (hR : R.Proper) : ∀ {depth : Nat} {Φ : List NameMap}
    {ds : List FunctionDecl}, R.Marks depth Φ → R.Fresh (FunctionDecl.stepsAll ds) →
    FunctionDecl.AlikeAll R.variation Φ ds (R.functions (depth + 1) ds)
  | _, _, [], _, _ => .nil
  | _, _, _ :: _, hΦ, h =>
      .cons (alike_function hR (.inl rfl) hΦ.cons (R.apart_succ _ _) h.left) (alike_functions hR hΦ h.right)
end

/-! ## Around the scope of the variable -/

/-- What is known about a walk over the program. -/
structure Admits (R : LocalRenaming) (steps : List ResolveStep) : Prop where
  clean : ∃ st : Resolution, (st.walk steps).errors = []
  fresh : R.Fresh steps
  named : ResolveStep.Named steps

section Admits

variable {R : LocalRenaming} {as bs : List ResolveStep} {step : ResolveStep}

theorem Admits.left (h : R.Admits (as ++ bs)) : R.Admits as := by
  obtain ⟨st, hst⟩ := h.clean
  rw [Resolution.walk_append] at hst
  exact ⟨⟨st, Resolution.errors_of_walk bs _ hst⟩, h.fresh.left, (ResolveStep.named_append.mp h.named).1⟩

theorem Admits.right (h : R.Admits (as ++ bs)) : R.Admits bs := by
  obtain ⟨st, hst⟩ := h.clean
  rw [Resolution.walk_append] at hst
  exact ⟨⟨_, hst⟩, h.fresh.right, (ResolveStep.named_append.mp h.named).2⟩

theorem Admits.tail (h : R.Admits (step :: as)) : R.Admits as := by
  have h' : R.Admits ([step] ++ as) := h
  exact h'.right

/-- Declared variables are declared in the walk. -/
theorem declare_mem_steps (site : Site) {name : String} : ∀ {s : Stmt}, (name, true) ∈ s.declared →
    ∃ key : Ident, key.name = name ∧ ResolveStep.declare key ∈ s.steps site
  | .var key none, h => by
      cases List.mem_singleton.mp h
      exact ⟨key, rfl, List.mem_cons_self⟩
  | .var key (some _), h => by
      cases List.mem_singleton.mp h
      exact ⟨key, rfl, List.mem_cons_self⟩
  | .function _, h | .classDecl _ _, h => by cases List.mem_singleton.mp h
  | .ifElse _ whenTrue none, h => by
      obtain ⟨key, hname, hmem⟩ := declare_mem_steps site (s := whenTrue) h
      exact ⟨key, hname, List.mem_append_right _ hmem⟩
  | .ifElse _ whenTrue (some whenFalse), h => by
      rcases List.mem_append.mp h with h | h
      · obtain ⟨key, hname, hmem⟩ := declare_mem_steps site (s := whenTrue) h
        exact ⟨key, hname, List.mem_append_left _ (List.mem_append_right _ hmem)⟩
      · obtain ⟨key, hname, hmem⟩ := declare_mem_steps site (s := whenFalse) h
        exact ⟨key, hname, List.mem_append_right _ hmem⟩
  | .whileLoop _ body, h => by
      obtain ⟨key, hname, hmem⟩ := declare_mem_steps site (s := body) h
      exact ⟨key, hname, List.mem_append_right _ hmem⟩
  | .expr _, h | .print _, h | .block _, h | .ret _ _, h => by cases h

theorem declare_mem_stepsAll (site : Site) {name : String} {ss : List Stmt}
    (h : (name, true) ∈ Stmt.declaredAll ss) :
    ∃ key : Ident, key.name = name ∧ ResolveStep.declare key ∈ Stmt.stepsAll site ss := by
  induction ss with
  | nil => cases h
  | cons s ss ih =>
      rcases List.mem_append.mp h with h | h
      · obtain ⟨key, hname, hmem⟩ := declare_mem_steps site h
        exact ⟨key, hname, List.mem_append_left _ hmem⟩
      · obtain ⟨key, hname, hmem⟩ := ih h
        exact ⟨key, hname, List.mem_append_right _ hmem⟩

theorem declare_mem_function (site : Site) {name : String} {d : FunctionDecl} (h : (name, true) ∈ d.declared) :
    ∃ key : Ident, key.name = name ∧ ResolveStep.declare key ∈ d.steps site := by
  obtain ⟨f, params, body⟩ := d
  suffices hmem : ∃ key : Ident, key.name = name ∧
      ResolveStep.declare key ∈ params.flatMap ResolveStep.introduce ++ Stmt.stepsAll site body by
    obtain ⟨key, hname, hmem⟩ := hmem
    exact ⟨key, hname, List.mem_cons_of_mem _ (List.mem_append_left _ hmem)⟩
  rcases List.mem_append.mp h with h | h
  · obtain ⟨param, hparam, heq⟩ := List.mem_map.mp h
    refine ⟨param, congrArg Prod.fst heq, List.mem_append_left _ ?_⟩
    exact List.mem_flatMap.mpr ⟨param, hparam, List.mem_cons_self⟩
  · obtain ⟨key, hname, hmem⟩ := declare_mem_stepsAll site h
    exact ⟨key, hname, List.mem_append_right _ hmem⟩

/-- The old name is not spelled `this` if it is declared. -/
theorem Admits.proper (h : R.Admits as) (hnew : R.new ≠ thisName)
    (hold : ∃ key : Ident, key.name = R.old ∧ ResolveStep.declare key ∈ as) : R.Proper := by
  obtain ⟨key, hkey, hmem⟩ := hold
  exact ⟨hkey ▸ h.named key hmem, hnew⟩

end Admits

section Scope

variable {R : LocalRenaming} {site : Site} {Φ : List NameMap}

/-- A renamed variable of a block. -/
theorem alike_block (hnew : R.new ≠ thisName) (hΦ : NameMap.Keeping Φ) {body : List Stmt}
    (hold : (R.old, true) ∈ Stmt.declaredAll body) (h : R.Admits ((Stmt.block body).steps site)) :
    (Stmt.block body).Alike R.variation Φ (.block (R.stmts 0 body)) := by
  have hbody : R.Admits (Stmt.stepsAll site body) := h.tail.left
  obtain ⟨st, hst⟩ := h.clean
  have hclean : (Stmt.resolveAll site body (st.enter [])).errors = [] := by
    rw [Stmt.resolveAll_eq_walk]
    refine Resolution.errors_of_walk [.leave] _ ?_
    rwa [← Resolution.walk_append]
  have hapart := not_mem_declared (Stmt.declaredAll_distinct hclean) hold
  have hR := hbody.proper hnew (declare_mem_stepsAll site hold)
  exact .block (.inr rfl) (alike_stmts hR (marks_zero hΦ) (fun _ => hapart) hbody.fresh)

/-- A renamed parameter or variable of a function. -/
theorem alike_scope (hnew : R.new ≠ thisName) (hΦ : NameMap.Keeping Φ) {d : FunctionDecl}
    (hold : (R.old, true) ∈ d.declared) (h : R.Admits (d.steps site)) :
    d.Alike R.variation Φ (R.function 0 d) := by
  obtain ⟨st, hst⟩ := h.clean
  rw [← FunctionDecl.resolve_eq_walk] at hst
  have hapart := not_mem_declared (FunctionDecl.declared_distinct hst) hold
  have hR := h.proper hnew (declare_mem_function site hold)
  exact alike_function hR (.inr rfl) (marks_zero hΦ) (fun _ => hapart) h.fresh

/-- What is not renamed. -/
theorem agrees (R : LocalRenaming) (refs : List Reference) : R.variation.Agrees id refs :=
  ⟨fun _ _ => rfl, fun _ => rfl⟩

theorem fixed_of_keeping (hΦ : NameMap.Keeping Φ) (name : String) : NameMap.innermost Φ name = name := by
  rw [hΦ.innermost, NameMap.keep_apply]

end Scope

mutual
theorem InStmt.alike {R : LocalRenaming} (hnew : R.new ≠ thisName) : ∀ {site : Site} {Φ : List NameMap}
    {s s' : Stmt}, InStmt R s s' → NameMap.Keeping Φ → R.Admits (s.steps site) → s.Alike R.variation Φ s'
  | _, _, _, _, .block hold, hΦ, h => alike_block hnew hΦ hold h
  | _, _, _, _, .inBlock hbody, hΦ, h => .block (.inl rfl) (hbody.alike hnew hΦ.cons h.tail.left)
  | _, _, .ifElse _ _ none, _, .inThen ha, hΦ, h => .ifThen (.refl hΦ (R.agrees _)) (ha.alike hnew hΦ h.right)
  | _, _, .ifElse _ _ (some _), _, .inThen ha, hΦ, h =>
      .ifElse (.refl hΦ (R.agrees _)) (ha.alike hnew hΦ h.left.right) (.refl hΦ (R.agrees _))
  | _, _, _, _, .inElse hb, hΦ, h =>
      .ifElse (.refl hΦ (R.agrees _)) (.refl hΦ (R.agrees _)) (hb.alike hnew hΦ h.right)
  | _, _, _, _, .inLoop hbody, hΦ, h => .whileLoop (.refl hΦ (R.agrees _)) (hbody.alike hnew hΦ h.right)
  | _, _, _, _, .inFunction hd, hΦ, h => .function (fixed_of_keeping hΦ _) (hd.alike hnew hΦ h.right)
  | _, _, _, _, .inClass hds, hΦ, h =>
      .classDecl (fixed_of_keeping hΦ _) rfl (hds.alike hnew hΦ.cons h.right.tail.left)
/-- **A program is like itself with a local variable renamed.** -/
theorem InStmts.alike {R : LocalRenaming} (hnew : R.new ≠ thisName) : ∀ {site : Site} {Φ : List NameMap}
    {ss ss' : List Stmt}, InStmts R ss ss' → NameMap.Keeping Φ → R.Admits (Stmt.stepsAll site ss) →
    Stmt.AlikeAll R.variation Φ ss ss'
  | _, _, _, _, .head hs, hΦ, h => .cons (hs.alike hnew hΦ h.left) (.refl hΦ (R.agrees _))
  | _, _, _, _, .tail hss, hΦ, h => .cons (.refl hΦ (R.agrees _)) (hss.alike hnew hΦ h.right)
theorem InFunction.alike {R : LocalRenaming} (hnew : R.new ≠ thisName) : ∀ {site : Site} {Φ : List NameMap}
    {d d' : FunctionDecl}, InFunction R d d' → NameMap.Keeping Φ → R.Admits (d.steps site) →
    d.Alike R.variation Φ d'
  | _, _, _, _, .scope hold, hΦ, h => alike_scope hnew hΦ hold h
  | _, _, _, _, .inBody hbody, hΦ, h =>
      .mk rfl (.inl rfl) (.refl _) (hbody.alike hnew hΦ.cons h.tail.left.right)
theorem InFunctions.alike {R : LocalRenaming} (hnew : R.new ≠ thisName) : ∀ {Φ : List NameMap}
    {ds ds' : List FunctionDecl}, InFunctions R ds ds' → NameMap.Keeping Φ →
    R.Admits (FunctionDecl.stepsAll ds) → FunctionDecl.AlikeAll R.variation Φ ds ds'
  | _, _, _, .head hd, hΦ, h => .cons (hd.alike hnew hΦ h.left) (.refl hΦ (R.agrees _))
  | _, _, _, .tail hds, hΦ, h => .cons (.refl hΦ (R.agrees _)) (hds.alike hnew hΦ h.right)
end

/-- The renamings in use tell all names apart but the new one. -/
theorem separates (R : LocalRenaming) (hnew : R.new ≠ thisName) : R.variation.Separates (· ≠ R.new) where
  this := Ne.symm hnew
  apart := by
    have hswap : ∀ {a b : String}, a ≠ R.new → b ≠ R.new → R.swap a = b → a = b := by
      intro a b ha hb h
      by_cases hold : a = R.old
      · by_cases hthis : R.old = thisName
        · have hkeep : R.swap = .keep := dif_neg fun hxy => hxy.1 hthis
          rw [hkeep] at h
          exact h
        · rw [hold] at h
          exact absurd ((NameMap.swap_left hthis hnew).symm.trans h).symm hb
      · exact (NameMap.swap_of_ne hold ha).symm.trans h
    rintro σ τ a b (rfl | rfl) (rfl | rfl) ha hb h
    · exact h
    · exact (hswap hb ha h.symm).symm
    · exact hswap ha hb h
    · exact R.swap.injective h

end LocalRenaming

end Scriptlet
