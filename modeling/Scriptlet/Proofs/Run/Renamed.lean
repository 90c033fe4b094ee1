import Scriptlet.Proofs.Heap.Readings
import Scriptlet.Proofs.NodeIds.Renaming

/-!
# Runs of renamed programs

A run does not depend on the node ids of its program and of the functions it finds in the heap, as long as the
table of scope distances is renamed along.

* `Heap.mapIds`, `Machine.rename` — all functions of the heap with their ids renamed, and another table.
* `Exec.Renamed` — two actions that do the same on machines that differ by the renaming.

Principal result: `interpret_mapIds` — a renamed program on a renamed machine.
-/

set_option autoImplicit false

namespace Scriptlet

/-! ## Renamed heaps -/

/-- A function with its ids renamed. -/
def Function.mapIds (f : NodeId → NodeId) (fn : Function) : Function :=
  { fn with decl := fn.decl.mapIds f }

/-- A class with the ids of its methods renamed. -/
def Class.mapIds (f : NodeId → NodeId) (c : Class) : Class :=
  { c with methods := c.methods.map fun entry => (entry.1, entry.2.mapIds f) }

/-- A heap with all ids renamed. -/
def Heap.mapIds (f : NodeId → NodeId) (h : Heap) : Heap :=
  { h with functions := h.functions.map (Function.mapIds f), classes := h.classes.map (Class.mapIds f) }

section Heap

variable (f : NodeId → NodeId) (h : Heap)

theorem Heap.function_mapIds (i : FunctionId) :
    (h.mapIds f).function i = (h.function i).mapIds f := by
  unfold Heap.function Heap.mapIds
  rw [Array.getD_eq_getD_getElem?, Array.getD_eq_getD_getElem?, Array.getElem?_map]
  cases h.functions[i]? <;> rfl

theorem Heap.cls_mapIds (i : ClassId) : (h.mapIds f).cls i = (h.cls i).mapIds f := by
  unfold Heap.cls Heap.mapIds
  rw [Array.getD_eq_getD_getElem?, Array.getD_eq_getD_getElem?, Array.getElem?_map]
  cases h.classes[i]? <;> rfl

theorem Class.method?_mapIds (c : Class) (name : String) :
    (c.mapIds f).method? name = (c.method? name).map (Function.mapIds f) := by
  unfold Class.method? Class.mapIds
  generalize c.methods = methods
  induction methods with
  | nil => rfl
  | cons entry methods ih =>
      obtain ⟨key, fn⟩ := entry
      simp only [List.map_cons, List.lookup_cons]
      cases name == key with
      | true => rfl
      | false => exact ih

theorem Function.arity_mapIds (fn : Function) : (fn.mapIds f).arity = fn.arity := by
  simp only [Function.arity, FunctionDecl.arity, Function.mapIds, FunctionDecl.params_mapIds]

theorem Class.arity_mapIds (c : Class) : (c.mapIds f).arity = c.arity := by
  unfold Class.arity
  rw [Class.method?_mapIds]
  cases c.method? constructorName with
  | none => rfl
  | some fn => exact Function.arity_mapIds f fn

/-- A renamed heap looks like the heap. -/
theorem Heap.looksLike_mapIds : h.LooksLike (h.mapIds f) where
  arrays := rfl
  objects := rfl
  natives := rfl
  functionName := fun i => by
    rw [Heap.function_mapIds]
    exact congrArg Ident.name (FunctionDecl.name_mapIds f _)
  functionArity := fun i => by rw [Heap.function_mapIds, Function.arity_mapIds]
  className := fun i => by
    rw [Heap.cls_mapIds]
    rfl
  classArity := fun i => by rw [Heap.cls_mapIds, Class.arity_mapIds]

theorem Heap.ownerWithin_mapIds (name : String) (bound : Nat) (i : ScopeId) :
    (h.mapIds f).ownerWithin name bound i = h.ownerWithin name bound i := by
  induction bound generalizing i with
  | zero => rfl
  | succ bound ih =>
      simp only [Heap.ownerWithin, ih]
      rfl

theorem Heap.ancestor?_mapIds (distance : Nat) (i : ScopeId) :
    (h.mapIds f).ancestor? i distance = h.ancestor? i distance := by
  induction distance generalizing i with
  | zero => rfl
  | succ distance ih =>
      simp only [Heap.ancestor?, ih]
      rfl

theorem Heap.readAt_mapIds (i : ScopeId) (distance : Nat) (name : String) :
    (h.mapIds f).readAt i distance name = h.readAt i distance name := by
  unfold Heap.readAt
  rw [Heap.ancestor?_mapIds]
  rfl

theorem Heap.owner?_mapIds (i : ScopeId) (name : String) : (h.mapIds f).owner? i name = h.owner? i name :=
  h.ownerWithin_mapIds f name (i + 1) i

theorem Heap.search?_mapIds (i : ScopeId) (name : String) :
    (h.mapIds f).search? i name = h.search? i name := by
  unfold Heap.search?
  rw [Heap.owner?_mapIds]
  rfl

theorem Heap.addFunction_mapIds (fn : Function) :
    (h.mapIds f).addFunction (fn.mapIds f) = (h.addFunction fn).mapIds f := by
  simp only [Heap.addFunction, Heap.mapIds, Array.map_push]

theorem Heap.addClass_mapIds (c : Class) :
    (h.mapIds f).addClass (c.mapIds f) = (h.addClass c).mapIds f := by
  simp only [Heap.addClass, Heap.mapIds, Array.map_push]

end Heap

/-! ## Renamed actions -/

/-- A machine with all ids of its heap renamed, and another table. -/
def Machine.rename (f : NodeId → NodeId) (T' : DistanceTable) (m : Machine) : Machine :=
  { m with heap := m.heap.mapIds f, table := T' }

/-- A renaming of ids and of the table that is filed under them. -/
structure IdRenaming where
  map : NodeId → NodeId
  table : DistanceTable
  renamed : DistanceTable
  agree : DistanceTable.Renames map table renamed

/-- A machine that differs from another by a renaming. -/
abbrev IdRenaming.machine (R : IdRenaming) (m : Machine) : Machine := m.rename R.map R.renamed

/-- The action `y` does on a renamed machine what `x` does; results are related by `g`. -/
def Exec.Renamed {α : Type} (R : IdRenaming) (g : α → α) (x y : Exec α) : Prop :=
  ∀ m, m.table = R.table → match x m with
    | .ok a m' => m'.table = R.table ∧ y (R.machine m) = .ok (g a) (R.machine m')
    | .error halt m' => m'.table = R.table ∧ y (R.machine m) = .error halt (R.machine m')

namespace Exec

section Actions

variable {R : IdRenaming} {α β : Type} {g : α → α} {g' : β → β} {x y : Exec α} {k k' : α → Exec β}

theorem Renamed.pure {a b : α} (h : b = g a) : Renamed R g (pure a) (pure b) := by
  subst h
  exact fun _ hm => ⟨hm, rfl⟩

theorem Renamed.bind (hx : Renamed R g x y) (hk : ∀ a, Renamed R g' (k a) (k' (g a))) :
    Renamed R g' (x >>= k) (y >>= k') := by
  intro m hm
  have h₁ := hx m hm
  simp only [Bind.bind, EStateM.bind]
  cases hr : x m with
  | ok a m' =>
      rw [hr] at h₁
      simp only [h₁.2]
      exact hk a m' h₁.1
  | error halt m' =>
      rw [hr] at h₁
      simp only [h₁.2]
      exact ⟨h₁.1, trivial⟩

theorem renamed_exhausted : Renamed R g exhausted exhausted := fun _ hm => ⟨hm, rfl⟩

theorem renamed_fail {line : Nat} {fault : ScriptFault} : Renamed R g (fail line fault) (fail line fault) :=
  fun _ hm => ⟨hm, rfl⟩

theorem renamed_orFail {line : Nat} {result : Except ScriptFault α} :
    Renamed R id (orFail line result) (orFail line result) := by
  cases result with
  | ok a => exact .pure rfl
  | error fault => exact renamed_fail

theorem renamed_read {q : Heap → α} (h : ∀ heap, q (heap.mapIds R.map) = g (q heap)) :
    Renamed R g (read q) (read q) :=
  fun m hm => ⟨hm, congrArg (EStateM.Result.ok · (R.machine m)) (h m.heap)⟩

theorem renamed_setField (i : ObjectId) (name : String) (value : Value) :
    Renamed R id (change fun h => h.setField i name value) (change fun h => h.setField i name value) :=
  fun _ hm => ⟨hm, rfl⟩

theorem renamed_currentScope : Renamed R id currentScope currentScope := fun _ hm => ⟨hm, rfl⟩

theorem renamed_define (name : String) (value : Value) :
    Renamed R id (define name value) (define name value) :=
  fun _ hm => ⟨hm, rfl⟩

theorem renamed_readAt (scope : ScopeId) (distance : Nat) (name : String) :
    Renamed R id (readAt scope distance name) (readAt scope distance name) := by
  intro m hm
  simp only [readAt, Machine.rename, Heap.readAt_mapIds]
  cases m.heap.readAt scope distance name with
  | ok value => exact ⟨hm, rfl⟩
  | error fault => exact ⟨hm, rfl⟩

/-- The table of a renamed machine says the same about the renamed id. -/
theorem distance?_rename {m : Machine} (hm : m.table = R.table) (i : NodeId) :
    (R.machine m).table.distance? (R.map i) = m.table.distance? i := by
  rw [hm]
  exact R.agree i

theorem renamed_lookUp (i : NodeId) (name : Ident) :
    Renamed R id (lookUp i name) (lookUp (R.map i) name) := by
  intro m hm
  simp only [lookUp, distance?_rename hm]
  cases m.table.distance? i with
  | some distance => exact renamed_readAt m.current distance name.name m hm
  | none =>
      simp only [Machine.rename, Heap.search?_mapIds]
      cases m.heap.search? globalScope name.name with
      | some value => exact ⟨hm, rfl⟩
      | none => exact ⟨hm, rfl⟩

theorem renamed_assignFrom (scope : ScopeId) (name : Ident) (value : Value) :
    Renamed R id (assignFrom scope name value) (assignFrom scope name value) := by
  intro m hm
  simp only [assignFrom, Machine.rename, Heap.owner?_mapIds]
  cases m.heap.owner? scope name.name with
  | some owner => exact ⟨hm, rfl⟩
  | none => exact ⟨hm, rfl⟩

theorem renamed_assign (i : NodeId) (name : Ident) (value : Value) :
    Renamed R id (assign i name value) (assign (R.map i) name value) := by
  intro m hm
  simp only [assign, distance?_rename hm]
  cases m.table.distance? i with
  | none => exact renamed_assignFrom globalScope name value m hm
  | some distance =>
      simp only [Machine.rename, Heap.ancestor?_mapIds]
      cases m.heap.ancestor? m.current distance with
      | some owner => exact ⟨hm, rfl⟩
      | none => exact ⟨hm, rfl⟩

theorem renamed_newScope (enclosing : ScopeId) (names : Bindings) :
    Renamed R id (newScope enclosing names) (newScope enclosing names) :=
  fun _ hm => ⟨hm, rfl⟩

theorem renamed_newArray (items : List Value) : Renamed R id (newArray items) (newArray items) :=
  fun _ hm => ⟨hm, rfl⟩

theorem renamed_newObject (c : ClassId) : Renamed R id (newObject c) (newObject c) :=
  fun _ hm => ⟨hm, rfl⟩

theorem renamed_newFunction (fn : Function) :
    Renamed R id (newFunction fn) (newFunction (fn.mapIds R.map)) := by
  refine fun m hm => ⟨hm, ?_⟩
  simp only [newFunction, Machine.rename, Heap.addFunction_mapIds]
  simp only [Heap.mapIds, Array.size_map, id]

theorem renamed_newClass (c : Class) : Renamed R id (newClass c) (newClass (c.mapIds R.map)) := by
  refine fun m hm => ⟨hm, ?_⟩
  simp only [newClass, Machine.rename, Heap.addClass_mapIds]
  simp only [Heap.mapIds, Array.size_map, id]

theorem renamed_bindMethod (method : Function) (object : ObjectId) :
    Renamed R (Function.mapIds R.map) (bindMethod method object)
      (bindMethod (method.mapIds R.map) object) :=
  (renamed_newScope _ _).bind fun _ => .pure rfl

theorem renamed_inScope (scope : ScopeId) (hx : Renamed R g x y) :
    Renamed R g (inScope scope x) (inScope scope y) := by
  intro m hm
  have h := hx { m with current := scope } hm
  have henter : { R.machine m with current := scope } = R.machine { m with current := scope } := rfl
  simp only [inScope, henter]
  cases hr : x { m with current := scope } with
  | ok a m' =>
      rw [hr] at h
      simp only [h.2]
      exact ⟨h.1, rfl⟩
  | error halt m' =>
      rw [hr] at h
      simp only [h.2]
      exact ⟨h.1, rfl⟩

theorem renamed_write (text : String) : Renamed R id (write text) (write text) := by
  intro m hm
  simp only [write, Machine.rename]
  cases m.sink.hasRoom text.toUTF8.size with
  | true => exact ⟨hm, rfl⟩
  | false => exact ⟨hm, rfl⟩

theorem renamed_callNative (i : NativeId) (args : List Value) (line : Nat) :
    Renamed R id (callNative i args line) (callNative i args line) := by
  intro m hm
  simp only [callNative, Machine.rename]
  have hnative : (m.heap.mapIds R.map).native i = m.heap.native i := rfl
  rw [hnative]
  cases (m.heap.native i).run (m.clock m.ticks) args with
  | ok value => exact ⟨hm, rfl⟩
  | error text => exact ⟨hm, rfl⟩

theorem renamed_property (object : Value) (name : Ident) :
    Renamed R id (property object name) (property object name) := by
  unfold property
  cases object with
  | object i =>
      refine (renamed_read (g := id) fun _ => rfl).bind fun field => ?_
      cases field with
      | some value => exact .pure rfl
      | none =>
          refine (renamed_read (g := Option.map (Function.mapIds R.map)) fun heap => ?_).bind
            fun method => ?_
          · rw [(Heap.looksLike_mapIds _ _).object, Heap.cls_mapIds, Class.method?_mapIds]
          · cases method with
            | some method => exact (renamed_bindMethod method i).bind fun bound => renamed_newFunction bound
            | none => exact renamed_fail
  | null | bool | number | string | array | function | native | classRef => exact renamed_fail

theorem renamed_declareFunction (decl : FunctionDecl) :
    Renamed R id (declareFunction decl) (declareFunction (decl.mapIds R.map)) := by
  unfold declareFunction
  rw [FunctionDecl.name_mapIds]
  exact renamed_currentScope.bind fun scope => (renamed_newFunction ⟨decl, scope, false⟩).bind fun value =>
    renamed_define _ value

theorem mapIdsAll_eq_map (f : NodeId → NodeId) (ds : List FunctionDecl) :
    FunctionDecl.mapIdsAll f ds = ds.map (FunctionDecl.mapIds f) := by
  induction ds with
  | nil => rfl
  | cons d ds ih => rw [FunctionDecl.mapIdsAll, ih, List.map_cons]

theorem methodsOf_mapIds (f : NodeId → NodeId) (scope : ScopeId) (ds : List FunctionDecl) :
    methodsOf scope (FunctionDecl.mapIdsAll f ds) =
      (methodsOf scope ds).map fun entry => (entry.1, entry.2.mapIds f) := by
  simp only [methodsOf, mapIdsAll_eq_map, ← List.map_reverse, List.map_map]
  refine List.map_congr_left fun d _ => ?_
  simp only [Function.comp, Function.mapIds, FunctionDecl.name_mapIds]

theorem renamed_declareClass (name : Ident) (methods : List FunctionDecl) :
    Renamed R id (declareClass name methods)
      (declareClass name (FunctionDecl.mapIdsAll R.map methods)) := by
  unfold declareClass
  refine (renamed_define _ _).bind fun _ => renamed_currentScope.bind fun scope => ?_
  rw [methodsOf_mapIds]
  exact (renamed_newClass ⟨name.name, methodsOf scope methods⟩).bind fun value =>
    renamed_assignFrom scope name value

end Actions

end Exec

/-! ## Renamed programs -/

open Exec

/-- All tasks of a renamed program on a renamed machine. -/
structure StepsRenamed (R : IdRenaming) (steps : Nat) : Prop where
  eval : ∀ e, Renamed R id (evaluate steps e) (evaluate steps (e.mapIds R.map))
  evalAll : ∀ es, Renamed R id (evaluateAll steps es) (evaluateAll steps (Expr.mapIdsAll R.map es))
  call : ∀ callee args line, Renamed R id (call steps callee args line) (call steps callee args line)
  callWith : ∀ callee args line,
    Renamed R id (callWith steps callee args line) (callWith steps callee args line)
  invoke : ∀ fn args, Renamed R id (invoke steps fn args) (invoke steps (fn.mapIds R.map) args)
  exec : ∀ s, Renamed R id (execute steps s) (execute steps (s.mapIds R.map))
  execAll : ∀ ss, Renamed R id (executeAll steps ss) (executeAll steps (Stmt.mapIdsAll R.map ss))
  loop : ∀ test body, Renamed R id (loop steps test body)
    (loop steps (test.mapIds R.map) (body.mapIds R.map))

section Succ

variable {R : IdRenaming} {steps : Nat}

theorem evaluate_succ_renamed (ih : StepsRenamed R steps) (e : Expr) :
    Renamed R id (evaluate (steps + 1) e) (evaluate (steps + 1) (e.mapIds R.map)) := by
  unfold evaluate
  cases e with
  | lit value => exact .pure rfl
  | group inner => exact ih.eval inner
  | unary op operand => exact (ih.eval operand).bind fun a => renamed_orFail
  | binary op left right =>
      refine (ih.eval left).bind fun a => (ih.eval right).bind fun b => ?_
      exact (renamed_read (g := id) fun heap => (heap.looksLike_mapIds _).applyBinary _ _ _ _).bind fun _ =>
        renamed_orFail
  | logical op left right =>
      exact (ih.eval left).bind fun a => (ih.eval right).bind fun b => renamed_orFail
  | ternary test whenTrue whenFalse =>
      refine (ih.eval test).bind fun a => ?_
      dsimp only [id]
      split
      · exact ih.eval whenTrue
      · exact ih.eval whenFalse
  | var i name => exact renamed_lookUp i name
  | assign i name value =>
      exact (ih.eval value).bind fun a => (renamed_assign i name a).bind fun _ => .pure rfl
  | update i name op operand =>
      refine (ih.eval operand).bind fun a => (renamed_lookUp i name).bind fun old => ?_
      refine (renamed_read (g := id) fun heap => (heap.looksLike_mapIds _).applyBinary _ _ _ _).bind fun result => ?_
      exact renamed_orFail.bind fun new => (renamed_assign i name new).bind fun _ => .pure rfl
  | this i line => exact renamed_lookUp i ⟨thisName, line⟩
  | array items => exact (ih.evalAll items).bind fun values => renamed_newArray values
  | index target line position =>
      refine (ih.eval position).bind fun a => (ih.eval target).bind fun b => ?_
      exact (renamed_read (g := id) fun _ => rfl).bind fun _ => renamed_orFail
  | call callee line args =>
      exact (ih.eval callee).bind fun fn => (ih.evalAll args).bind fun values => ih.call fn values line
  | get object name => exact (ih.eval object).bind fun a => renamed_property a name
  | set object name value =>
      refine (ih.eval object).bind fun a => ?_
      cases a with
      | object i =>
          exact (ih.eval value).bind fun b => (renamed_setField i name.name b).bind fun _ => .pure rfl
      | null | bool | number | string | array | function | native | classRef => exact renamed_fail

theorem evaluateAll_succ_renamed (ih : StepsRenamed R steps) (es : List Expr) :
    Renamed R id (evaluateAll (steps + 1) es) (evaluateAll (steps + 1) (Expr.mapIdsAll R.map es)) := by
  cases es with
  | nil => exact .pure rfl
  | cons e es =>
      unfold evaluateAll
      exact (ih.eval e).bind fun a => (ih.evalAll es).bind fun values => .pure rfl

theorem call_succ_renamed (ih : StepsRenamed R steps) (callee : Value) (args : List Value) (line : Nat) :
    Renamed R id (call (steps + 1) callee args line) (call (steps + 1) callee args line) := by
  unfold call
  refine (renamed_read (g := id) fun heap => (heap.looksLike_mapIds _).arity? callee).bind fun arity => ?_
  cases arity with
  | none => exact renamed_fail
  | some arity =>
      dsimp only [id]
      split
      · exact renamed_fail
      · exact ih.callWith callee args line

theorem callWith_succ_renamed (ih : StepsRenamed R steps) (callee : Value) (args : List Value)
    (line : Nat) :
    Renamed R id (callWith (steps + 1) callee args line) (callWith (steps + 1) callee args line) := by
  unfold callWith
  cases callee with
  | native i => exact renamed_callNative i args line
  | function i =>
      exact (renamed_read fun heap => Heap.function_mapIds _ heap i).bind fun fn => ih.invoke fn args
  | classRef i =>
      refine (renamed_newObject i).bind fun object => ?_
      refine (renamed_read (g := Option.map (Function.mapIds R.map)) fun heap => ?_).bind fun method => ?_
      · rw [Heap.cls_mapIds, Class.method?_mapIds]
      · cases method with
        | none => exact .pure rfl
        | some method =>
            exact (renamed_bindMethod method object).bind fun bound => (ih.invoke bound args).bind
              fun _ => .pure rfl
  | null | bool | number | string | array | object => exact renamed_fail

theorem invoke_succ_renamed (ih : StepsRenamed R steps) (fn : Function) (args : List Value) :
    Renamed R id (invoke (steps + 1) fn args) (invoke (steps + 1) (fn.mapIds R.map) args) := by
  obtain ⟨decl, closure, initializer⟩ := fn
  unfold invoke
  simp only [Function.mapIds, FunctionDecl.params_mapIds, FunctionDecl.body_mapIds]
  refine (renamed_newScope _ _).bind fun scope => ?_
  refine (renamed_inScope scope (ih.execAll decl.body)).bind fun flow => ?_
  cases initializer with
  | true => exact renamed_readAt closure 0 thisName
  | false =>
      cases flow with
      | returned value => exact .pure rfl
      | normal => exact .pure rfl

theorem execute_succ_renamed (ih : StepsRenamed R steps) (s : Stmt) :
    Renamed R id (execute (steps + 1) s) (execute (steps + 1) (s.mapIds R.map)) := by
  unfold execute
  cases s with
  | expr e => exact (ih.eval e).bind fun _ => .pure rfl
  | print e =>
      refine (ih.eval e).bind fun a => ?_
      exact (renamed_read (g := id) fun heap => (heap.looksLike_mapIds _).text a).bind fun text =>
        (renamed_write _).bind fun _ => .pure rfl
  | var name init =>
      cases init with
      | none => exact (renamed_define _ _).bind fun _ => .pure rfl
      | some init => exact (ih.eval init).bind fun a => (renamed_define _ a).bind fun _ => .pure rfl
  | block body =>
      exact renamed_currentScope.bind fun outer => (renamed_newScope outer []).bind fun scope =>
        renamed_inScope scope (ih.execAll body)
  | ifElse test whenTrue whenFalse =>
      cases whenFalse with
      | none =>
          refine (ih.eval test).bind fun a => ?_
          dsimp only [id]
          split
          · exact ih.exec whenTrue
          · exact .pure rfl
      | some whenFalse =>
          refine (ih.eval test).bind fun a => ?_
          dsimp only [id]
          split
          · exact ih.exec whenTrue
          · exact ih.exec whenFalse
  | whileLoop test body => exact ih.loop test body
  | function decl => exact (renamed_declareFunction decl).bind fun _ => .pure rfl
  | classDecl name methods => exact (renamed_declareClass name methods).bind fun _ => .pure rfl
  | ret line value =>
      cases value with
      | none => exact .pure rfl
      | some value => exact (ih.eval value).bind fun a => .pure rfl

theorem executeAll_succ_renamed (ih : StepsRenamed R steps) (ss : List Stmt) :
    Renamed R id (executeAll (steps + 1) ss) (executeAll (steps + 1) (Stmt.mapIdsAll R.map ss)) := by
  cases ss with
  | nil => exact .pure rfl
  | cons s ss =>
      unfold executeAll
      refine (ih.exec s).bind fun flow => ?_
      cases flow with
      | normal => exact ih.execAll ss
      | returned value => exact .pure rfl

theorem loop_succ_renamed (ih : StepsRenamed R steps) (test : Expr) (body : Stmt) :
    Renamed R id (loop (steps + 1) test body)
      (loop (steps + 1) (test.mapIds R.map) (body.mapIds R.map)) := by
  unfold loop
  refine (ih.eval test).bind fun a => ?_
  dsimp only [id]
  split
  · refine (ih.exec body).bind fun flow => ?_
    cases flow with
    | normal => exact ih.loop test body
    | returned value => exact .pure rfl
  · exact .pure rfl

end Succ

/-- **A run does not depend on node ids.** -/
theorem stepsRenamed (R : IdRenaming) : ∀ steps, StepsRenamed R steps
  | 0 => by
    constructor <;> intros <;> exact renamed_exhausted
  | steps + 1 =>
    let ih := stepsRenamed R steps
    ⟨evaluate_succ_renamed ih, evaluateAll_succ_renamed ih, call_succ_renamed ih,
      callWith_succ_renamed ih, invoke_succ_renamed ih, execute_succ_renamed ih,
      executeAll_succ_renamed ih, loop_succ_renamed ih⟩

theorem executeTop_renamed (R : IdRenaming) : ∀ (steps : Nat) (p : Program),
    Renamed R id (executeTop steps p) (executeTop steps (Stmt.mapIdsAll R.map p))
  | 0, _ => renamed_exhausted
  | _ + 1, [] => .pure rfl
  | steps + 1, s :: p => by
    unfold executeTop
    exact ((stepsRenamed R steps).exec s).bind fun _ => executeTop_renamed R steps p

theorem renamed_finish (R : IdRenaming) (result : Except RunError Unit) :
    Renamed R id (fun m => m.finish result) (fun m => m.finish result) := by
  intro m hm
  simp only [Machine.finish, Machine.rename]
  cases m.sink.flush.flushFails with
  | true => exact ⟨hm, rfl⟩
  | false =>
      cases result with
      | ok a => exact ⟨hm, rfl⟩
      | error e => exact ⟨hm, rfl⟩

/-- **A renamed program on a renamed machine.** -/
theorem interpret_mapIds (R : IdRenaming) (steps : Nat) (p : Program) :
    Renamed R id (interpret steps p) (interpret steps (Stmt.mapIdsAll R.map p)) := by
  intro m hm
  have h := executeTop_renamed R steps p m hm
  unfold interpret
  cases hr : executeTop steps p m with
  | ok a m' =>
      rw [hr] at h
      simp only [h.2]
      exact renamed_finish R (.ok ()) m' h.1
  | error halt m' =>
      rw [hr] at h
      simp only [h.2]
      cases halt with
      | error e => exact renamed_finish R (.error e) m' h.1
      | fault f => exact ⟨h.1, rfl⟩
      | exhausted => exact ⟨h.1, rfl⟩

end Scriptlet
