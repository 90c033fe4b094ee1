import Scriptlet.Proofs.Tree.Places
import Scriptlet.Run.Evaluate

/-!
# The lines of run-time errors

A running script blames a line for what goes wrong.  The line is from its own tree, or from that of a function on the
heap.

* `OnLines L places` — the places are on lines of the set `L`.
* `Heap.OnLines L h` — so are the places in the bodies of functions and methods; `Halt.OnLines L halt` — so is the line
  that the end of a run blames.
* `Exec.Blames L x` — from a heap on lines of `L`, the action leaves such a heap and blames lines of `L` only;
  `Exec.Yields L Q x` — and if it ends well, `Q` holds of its result.

Principal results: `tasksBlame` — the tasks of the evaluator blame lines of their trees and of the heap;
`interpret_blames` — so does a whole program.
-/

set_option autoImplicit false

namespace Scriptlet

/-! ## Lines -/

/-- Places on lines of a set. -/
def OnLines (L : Nat → Prop) (places : List Ident) : Prop := ∀ place ∈ places, L place.line

section Lines

variable {L M : Nat → Prop} {as bs : List Ident}

@[simp] theorem onLines_nil : OnLines L [] := nofun

@[simp] theorem onLines_append : OnLines L (as ++ bs) ↔ OnLines L as ∧ OnLines L bs := List.forall_mem_append

@[simp] theorem onLines_cons {place : Ident} : OnLines L (place :: as) ↔ L place.line ∧ OnLines L as :=
  List.forall_mem_cons

theorem OnLines.mono (h : OnLines L as) (hLM : ∀ line, L line → M line) : OnLines M as :=
  fun place hplace => hLM _ (h place hplace)

end Lines

/-- A function whose body is on lines of a set. -/
def Function.OnLines (L : Nat → Prop) (f : Function) : Prop := Scriptlet.OnLines L (Stmt.placesAll f.decl.body)

/-- A heap whose functions and methods are on lines of a set. -/
structure Heap.OnLines (L : Nat → Prop) (h : Heap) : Prop where
  functions : ∀ f ∈ h.functions, f.OnLines L
  methods : ∀ c ∈ h.classes, ∀ entry ∈ c.methods, entry.2.OnLines L

/-- An end of a run that blames a line of a set, if it blames one. -/
def Halt.OnLines (L : Nat → Prop) : Halt → Prop
  | .error (.script line _) => L line
  | _ => True

namespace Heap.OnLines

variable {L M : Nat → Prop} {h h' : Heap}

theorem mono (hh : h.OnLines L) (hLM : ∀ line, L line → M line) : h.OnLines M where
  functions := fun f hf => Scriptlet.OnLines.mono (hh.functions f hf) hLM
  methods := fun c hc entry hentry => Scriptlet.OnLines.mono (hh.methods c hc entry hentry) hLM

/-- Only functions and classes count. -/
theorem of_eq (hh : h.OnLines L) (hfunctions : h'.functions = h.functions) (hclasses : h'.classes = h.classes) :
    h'.OnLines L := by
  constructor
  · rw [hfunctions]
    exact hh.functions
  · rw [hclasses]
    exact hh.methods

theorem function (hh : h.OnLines L) (i : FunctionId) : (h.function i).OnLines L := by
  unfold Heap.function
  rw [Array.getD_eq_getD_getElem?]
  cases hget : h.functions[i]? with
  | none => exact onLines_nil
  | some f => exact hh.functions f (Array.mem_of_getElem? hget)

theorem method (hh : h.OnLines L) (i : ClassId) (name : String) : ∀ f ∈ (h.cls i).method? name, f.OnLines L := by
  intro f hf
  unfold Heap.cls at hf
  rw [Array.getD_eq_getD_getElem?] at hf
  cases hget : h.classes[i]? with
  | none =>
      rw [hget] at hf
      cases hf
  | some c =>
      rw [hget] at hf
      have hlookup : c.methods.lookup name = some f := hf
      obtain ⟨before, after, hmethods, -⟩ := List.lookup_eq_some_iff.mp hlookup
      refine hh.methods c (Array.mem_of_getElem? hget) (name, f) ?_
      rw [hmethods]
      exact List.mem_append_right _ List.mem_cons_self

theorem addFunction (hh : h.OnLines L) {f : Function} (hf : f.OnLines L) : (h.addFunction f).OnLines L := by
  refine ⟨fun g hg => ?_, hh.methods⟩
  rcases Array.mem_push.mp hg with hg | rfl
  · exact hh.functions g hg
  · exact hf

theorem addClass (hh : h.OnLines L) {c : Class} (hc : ∀ entry ∈ c.methods, entry.2.OnLines L) :
    (h.addClass c).OnLines L := by
  refine ⟨hh.functions, fun d hd => ?_⟩
  rcases Array.mem_push.mp hd with hd | rfl
  · exact hh.methods d hd
  · exact hc

end Heap.OnLines

/-! ## Actions -/

/-- A result with a heap on lines of `L` that blames no other lines; if it is a value, `Q` holds of it. -/
def EndsOn {α : Type} (L : Nat → Prop) (Q : α → Prop) : EStateM.Result Halt Machine α → Prop
  | .ok a m => m.heap.OnLines L ∧ Q a
  | .error halt m => m.heap.OnLines L ∧ halt.OnLines L

namespace Exec

variable {α β : Type} {L : Nat → Prop}

/-- The action keeps the heap on lines of `L` and blames no other lines; if it ends well, `Q` holds of its result. -/
def Yields (L : Nat → Prop) (Q : α → Prop) (x : Exec α) : Prop :=
  ∀ m : Machine, m.heap.OnLines L → EndsOn L Q (x m)

/-- The action keeps the heap on lines of `L` and blames no other lines. -/
abbrev Blames (L : Nat → Prop) (x : Exec α) : Prop := Yields L (fun _ => True) x

theorem Yields.bind {Q : α → Prop} {R : β → Prop} {x : Exec α} {k : α → Exec β} (hx : Yields L Q x)
    (hk : ∀ a, Q a → Yields L R (k a)) : Yields L R (x >>= k) := by
  intro m hm
  have hfirst := hx m hm
  simp only [Bind.bind, EStateM.bind]
  cases hr : x m with
  | ok a m' =>
      rw [hr] at hfirst
      exact hk a hfirst.2 m' hfirst.1
  | error halt m' =>
      rw [hr] at hfirst
      exact hfirst

theorem Yields.pure {Q : α → Prop} {a : α} (h : Q a) : Yields L Q (pure a) := fun _ hm => ⟨hm, h⟩

theorem blames_exhausted : Blames L (exhausted (α := α)) := fun _ hm => ⟨hm, trivial⟩

theorem blames_fail {line : Nat} (hline : L line) (fault : ScriptFault) : Blames L (fail (α := α) line fault) :=
  fun _ hm => ⟨hm, hline⟩

theorem blames_orFail {line : Nat} (hline : L line) (result : Except ScriptFault α) :
    Blames L (orFail line result) := by
  cases result with
  | ok a => exact .pure trivial
  | error fault => exact blames_fail hline fault

theorem blames_read (q : Heap → α) : Blames L (read q) := fun _ hm => ⟨hm, trivial⟩

theorem yields_function (i : FunctionId) : Yields L (Function.OnLines L) (read fun h => h.function i) :=
  fun _ hm => ⟨hm, hm.function i⟩

theorem yields_method (q : Heap → ClassId) (name : String) :
    Yields L (fun f? => ∀ f ∈ f?, f.OnLines L) (read fun h => (h.cls (q h)).method? name) :=
  fun m hm => ⟨hm, hm.method (q m.heap) name⟩

/-- An action that ends well and touches neither functions nor classes. -/
theorem blames_of_ok {x : Exec α}
    (hx : ∀ m, ∃ a m', x m = .ok a m' ∧ m'.heap.functions = m.heap.functions ∧ m'.heap.classes = m.heap.classes) :
    Blames L x := by
  intro m hm
  obtain ⟨a, m', hr, hfunctions, hclasses⟩ := hx m
  rw [hr]
  exact ⟨hm.of_eq hfunctions hclasses, trivial⟩

theorem blames_currentScope : Blames L currentScope := blames_of_ok fun _ => ⟨_, _, rfl, rfl, rfl⟩

theorem blames_define (name : String) (value : Value) : Blames L (define name value) :=
  blames_of_ok fun _ => ⟨_, _, rfl, rfl, rfl⟩

theorem blames_newScope (i : ScopeId) (names : Bindings) : Blames L (newScope i names) :=
  blames_of_ok fun _ => ⟨_, _, rfl, rfl, rfl⟩

theorem blames_newArray (items : List Value) : Blames L (newArray items) :=
  blames_of_ok fun _ => ⟨_, _, rfl, rfl, rfl⟩

theorem blames_newObject (c : ClassId) : Blames L (newObject c) :=
  blames_of_ok fun _ => ⟨_, _, rfl, rfl, rfl⟩

theorem blames_setField (i : ObjectId) (name : String) (value : Value) :
    Blames L (change fun h => h.setField i name value) :=
  blames_of_ok fun _ => ⟨_, _, rfl, rfl, rfl⟩

theorem blames_newFunction {f : Function} (hf : f.OnLines L) : Blames L (newFunction f) :=
  fun _ hm => ⟨hm.addFunction hf, trivial⟩

theorem blames_newClass {c : Class} (hc : ∀ entry ∈ c.methods, entry.2.OnLines L) :
    Blames L (newClass c) :=
  fun _ hm => ⟨hm.addClass hc, trivial⟩

theorem blames_readAt (scope : ScopeId) (distance : Nat) (name : String) :
    Blames L (readAt scope distance name) := by
  intro m hm
  unfold readAt
  cases m.heap.readAt scope distance name with
  | ok value => exact ⟨hm, trivial⟩
  | error f => exact ⟨hm, trivial⟩

theorem blames_lookUp (id : NodeId) {name : Ident} (hline : L name.line) :
    Blames L (lookUp id name) := by
  intro m hm
  unfold lookUp
  cases m.table.distance? id with
  | some distance => exact blames_readAt m.current distance name.name m hm
  | none =>
      cases m.heap.search? globalScope name.name with
      | some value => exact ⟨hm, trivial⟩
      | none => exact ⟨hm, hline⟩

theorem blames_assignFrom (scope : ScopeId) {name : Ident} (hline : L name.line) (value : Value) :
    Blames L (assignFrom scope name value) := by
  intro m hm
  unfold assignFrom
  cases m.heap.owner? scope name.name with
  | some owner => exact ⟨hm.of_eq rfl rfl, trivial⟩
  | none => exact ⟨hm, hline⟩

theorem blames_assign (id : NodeId) {name : Ident} (hline : L name.line) (value : Value) :
    Blames L (assign id name value) := by
  intro m hm
  unfold assign
  cases m.table.distance? id with
  | none => exact blames_assignFrom globalScope hline value m hm
  | some distance =>
      cases howner : m.heap.ancestor? m.current distance with
      | some owner =>
          simp only [howner]
          exact ⟨hm.of_eq rfl rfl, trivial⟩
      | none =>
          simp only [howner]
          exact ⟨hm, trivial⟩

theorem blames_write (text : String) : Blames L (write text) := by
  intro m hm
  unfold write
  cases hroom : m.sink.hasRoom text.toUTF8.size with
  | true =>
      simp only [hroom, if_true]
      exact ⟨hm, trivial⟩
  | false =>
      simp only [hroom, Bool.false_eq_true, if_false]
      exact ⟨hm, trivial⟩

theorem blames_callNative (id : NativeId) (args : List Value) {line : Nat} (hline : L line) :
    Blames L (callNative id args line) := by
  intro m hm
  unfold callNative
  cases (m.heap.native id).run (m.clock m.ticks) args with
  | ok value => exact ⟨hm, trivial⟩
  | error text => exact ⟨hm, hline⟩

theorem blames_inScope (scope : ScopeId) {x : Exec α} (hx : Blames L x) :
    Blames L (inScope scope x) := by
  intro m hm
  have hinside := hx { m with current := scope } hm
  unfold inScope
  cases hr : x { m with current := scope } with
  | ok a m' =>
      simp only [hr] at hinside ⊢
      exact hinside
  | error halt m' =>
      simp only [hr] at hinside ⊢
      exact hinside

/-- A bound method has the body of the method. -/
theorem yields_bindMethod {f : Function} (hf : f.OnLines L) (object : ObjectId) :
    Yields L (Function.OnLines L) (bindMethod f object) :=
  (blames_newScope f.closure _).bind fun _ _ => .pure hf

theorem blames_property (object : Value) {name : Ident} (hline : L name.line) :
    Blames L (property object name) := by
  unfold property
  cases object with
  | object id =>
      refine (blames_read _).bind fun field _ => ?_
      cases field with
      | some value => exact .pure trivial
      | none =>
          refine (yields_method _ name.name).bind fun method hmethod => ?_
          cases method with
          | some f => exact (yields_bindMethod (hmethod f rfl) id).bind fun g hg => blames_newFunction hg
          | none => exact blames_fail hline _
  | null | bool | number | string | array | function | native | classRef => exact blames_fail hline _

theorem blames_declareFunction {d : FunctionDecl} (hd : OnLines L d.places) :
    Blames L (declareFunction d) := by
  obtain ⟨name, params, body⟩ := d
  rw [FunctionDecl.places, onLines_cons, onLines_append] at hd
  refine blames_currentScope.bind fun scope _ => ?_
  have hf : Function.OnLines L ⟨.mk name params body, scope, false⟩ := hd.2.2
  exact (blames_newFunction hf).bind fun value _ => blames_define name.name value

theorem onLines_methodsOf (scope : ScopeId) {ds : List FunctionDecl} (hds : OnLines L (FunctionDecl.placesAll ds)) :
    ∀ entry ∈ methodsOf scope ds, entry.2.OnLines L := by
  have hbodies : ∀ d ∈ ds, OnLines L (Stmt.placesAll d.body) := by
    induction ds with
    | nil => exact nofun
    | cons d ds ih =>
        obtain ⟨name, params, body⟩ := d
        simp only [FunctionDecl.placesAll, FunctionDecl.places, onLines_append, onLines_cons] at hds
        exact List.forall_mem_cons.mpr ⟨hds.1.2.2, ih hds.2⟩
  intro entry hentry
  obtain ⟨d, hd, rfl⟩ := List.mem_map.mp hentry
  exact hbodies d (List.mem_reverse.mp hd)

theorem blames_declareClass {name : Ident} {ds : List FunctionDecl} (hline : L name.line)
    (hds : OnLines L (FunctionDecl.placesAll ds)) : Blames L (declareClass name ds) := by
  refine (blames_define name.name .null).bind fun _ _ => blames_currentScope.bind fun scope _ => ?_
  exact (blames_newClass (onLines_methodsOf scope hds)).bind fun cls _ => blames_assignFrom scope hline cls

end Exec

/-! ## Tasks -/

open Exec

/-- All tasks of the evaluator, with the given number of steps. -/
structure TasksBlame (L : Nat → Prop) (steps : Nat) : Prop where
  eval : ∀ {e : Expr}, OnLines L e.places → Blames L (evaluate steps e)
  evalAll : ∀ {es : List Expr}, OnLines L (Expr.placesAll es) → Blames L (evaluateAll steps es)
  call : ∀ (callee : Value) (args : List Value) {line : Nat}, L line →
    Blames L (call steps callee args line)
  callWith : ∀ (callee : Value) (args : List Value) {line : Nat}, L line →
    Blames L (callWith steps callee args line)
  invoke : ∀ {f : Function} (args : List Value), f.OnLines L → Blames L (invoke steps f args)
  exec : ∀ {s : Stmt}, OnLines L s.places → Blames L (execute steps s)
  execAll : ∀ {ss : List Stmt}, OnLines L (Stmt.placesAll ss) → Blames L (executeAll steps ss)
  loop : ∀ {test : Expr} {body : Stmt}, OnLines L test.places → OnLines L body.places →
    Blames L (loop steps test body)

section Succ

variable {L : Nat → Prop} {steps : Nat} (ih : TasksBlame L steps)
include ih

theorem evaluate_succ_blames {e : Expr} (he : OnLines L e.places) :
    Blames L (evaluate (steps + 1) e) := by
  unfold evaluate
  cases e with
  | lit value => exact .pure trivial
  | group inner => exact ih.eval he
  | unary op operand =>
      obtain ⟨hop, ha⟩ := onLines_cons.mp he
      exact (ih.eval ha).bind fun a _ => blames_orFail hop _
  | binary op left right =>
      simp only [Expr.places, onLines_cons, onLines_append] at he
      obtain ⟨hop, ha, hb⟩ := he
      refine (ih.eval ha).bind fun a _ => (ih.eval hb).bind fun b _ => ?_
      exact (blames_read _).bind fun result _ => blames_orFail hop result
  | logical op left right =>
      simp only [Expr.places, onLines_cons, onLines_append] at he
      obtain ⟨hop, ha, hb⟩ := he
      exact (ih.eval ha).bind fun a _ => (ih.eval hb).bind fun b _ => blames_orFail hop _
  | ternary test whenTrue whenFalse =>
      simp only [Expr.places, onLines_append] at he
      obtain ⟨⟨ha, hb⟩, hc⟩ := he
      refine (ih.eval ha).bind fun a _ => ?_
      split
      · exact ih.eval hb
      · exact ih.eval hc
  | var id name => exact blames_lookUp id (onLines_cons.mp he).1
  | assign id name value =>
      obtain ⟨hname, ha⟩ := onLines_cons.mp he
      exact (ih.eval ha).bind fun a _ => (blames_assign id hname a).bind fun _ _ => .pure trivial
  | update id name op operand =>
      simp only [Expr.places, onLines_cons] at he
      obtain ⟨hname, hop, ha⟩ := he
      refine (ih.eval ha).bind fun a _ => (blames_lookUp id hname).bind fun old _ => ?_
      refine (blames_read _).bind fun result _ => ?_
      refine (blames_orFail hop result).bind fun new _ => ?_
      exact (blames_assign id hname new).bind fun _ _ => .pure trivial
  | this id line => exact blames_lookUp id (onLines_cons.mp he).1
  | array items => exact (ih.evalAll he).bind fun values _ => blames_newArray values
  | index target line position =>
      simp only [Expr.places, onLines_cons, onLines_append] at he
      obtain ⟨hline, ha, hb⟩ := he
      refine (ih.eval hb).bind fun b _ => (ih.eval ha).bind fun a _ => ?_
      exact (blames_read _).bind fun result _ => blames_orFail hline result
  | call callee line args =>
      simp only [Expr.places, onLines_cons, onLines_append] at he
      obtain ⟨hline, ha, hargs⟩ := he
      exact (ih.eval ha).bind fun callee _ => (ih.evalAll hargs).bind fun args _ => ih.call callee args hline
  | get object name =>
      obtain ⟨hname, ha⟩ := onLines_cons.mp he
      exact (ih.eval ha).bind fun a _ => blames_property a hname
  | set object name value =>
      simp only [Expr.places, onLines_cons, onLines_append] at he
      obtain ⟨hname, ha, hb⟩ := he
      refine (ih.eval ha).bind fun a _ => ?_
      cases a with
      | object i =>
          refine (ih.eval hb).bind fun b _ => ?_
          exact (blames_setField i name.name b).bind fun _ _ => .pure trivial
      | null | bool | number | string | array | function | native | classRef => exact blames_fail hname _

theorem evaluateAll_succ_blames {es : List Expr} (hes : OnLines L (Expr.placesAll es)) :
    Blames L (evaluateAll (steps + 1) es) := by
  cases es with
  | nil => exact .pure trivial
  | cons e es =>
      obtain ⟨he, hes⟩ := onLines_append.mp hes
      unfold evaluateAll
      exact (ih.eval he).bind fun a _ => (ih.evalAll hes).bind fun values _ => .pure trivial

theorem call_succ_blames (callee : Value) (args : List Value) {line : Nat} (hline : L line) :
    Blames L (call (steps + 1) callee args line) := by
  unfold call
  refine (blames_read _).bind fun arity _ => ?_
  cases arity with
  | none => exact blames_fail hline _
  | some arity =>
      dsimp only
      split
      · exact blames_fail hline _
      · exact ih.callWith callee args hline

theorem callWith_succ_blames (callee : Value) (args : List Value) {line : Nat} (hline : L line) :
    Blames L (callWith (steps + 1) callee args line) := by
  unfold callWith
  cases callee with
  | native i => exact blames_callNative i args hline
  | function i => exact (yields_function i).bind fun f hf => ih.invoke args hf
  | classRef i =>
      refine (blames_newObject i).bind fun object _ => ?_
      refine (yields_method (fun _ => i) constructorName).bind fun method hmethod => ?_
      cases method with
      | none => exact .pure trivial
      | some f =>
          refine (yields_bindMethod (hmethod f rfl) object).bind fun bound hbound => ?_
          exact (ih.invoke args hbound).bind fun _ _ => .pure trivial
  | null | bool | number | string | array | object => exact blames_fail hline _

theorem invoke_succ_blames {f : Function} (args : List Value) (hf : f.OnLines L) :
    Blames L (invoke (steps + 1) f args) := by
  unfold invoke
  refine (blames_newScope f.closure _).bind fun scope _ => ?_
  refine (blames_inScope scope (ih.execAll hf)).bind fun flow _ => ?_
  split
  · exact blames_readAt f.closure 0 thisName
  · cases flow with
    | returned value => exact .pure trivial
    | normal => exact .pure trivial

theorem execute_succ_blames {s : Stmt} (hs : OnLines L s.places) :
    Blames L (execute (steps + 1) s) := by
  unfold execute
  cases s with
  | expr e => exact (ih.eval hs).bind fun _ _ => .pure trivial
  | print e =>
      refine (ih.eval hs).bind fun a _ => ?_
      refine (blames_read _).bind fun text _ => ?_
      exact (blames_write _).bind fun _ _ => .pure trivial
  | var name init =>
      cases init with
      | none => exact (blames_define name.name .null).bind fun _ _ => .pure trivial
      | some e =>
          obtain ⟨-, he⟩ := onLines_cons.mp hs
          exact (ih.eval he).bind fun a _ => (blames_define name.name a).bind fun _ _ => .pure trivial
  | block body =>
      refine blames_currentScope.bind fun current _ => (blames_newScope current []).bind fun scope _ => ?_
      exact blames_inScope scope (ih.execAll hs)
  | ifElse test whenTrue whenFalse =>
      cases whenFalse with
      | none =>
          obtain ⟨htest, htrue⟩ := onLines_append.mp hs
          refine (ih.eval htest).bind fun a _ => ?_
          dsimp only
          split
          · exact ih.exec htrue
          · exact .pure trivial
      | some whenFalse =>
          simp only [Stmt.places, onLines_append] at hs
          obtain ⟨⟨htest, htrue⟩, hfalse⟩ := hs
          refine (ih.eval htest).bind fun a _ => ?_
          dsimp only
          split
          · exact ih.exec htrue
          · exact ih.exec hfalse
  | whileLoop test body =>
      obtain ⟨htest, hbody⟩ := onLines_append.mp hs
      exact ih.loop htest hbody
  | function decl => exact (blames_declareFunction hs).bind fun _ _ => .pure trivial
  | classDecl name methods =>
      obtain ⟨hname, hmethods⟩ := onLines_cons.mp hs
      exact (blames_declareClass hname hmethods).bind fun _ _ => .pure trivial
  | ret line value =>
      cases value with
      | none => exact .pure trivial
      | some e =>
          obtain ⟨-, he⟩ := onLines_cons.mp hs
          exact (ih.eval he).bind fun _ _ => .pure trivial

theorem executeAll_succ_blames {ss : List Stmt} (hss : OnLines L (Stmt.placesAll ss)) :
    Blames L (executeAll (steps + 1) ss) := by
  cases ss with
  | nil => exact .pure trivial
  | cons s ss =>
      obtain ⟨hs, hss⟩ := onLines_append.mp hss
      unfold executeAll
      refine (ih.exec hs).bind fun flow _ => ?_
      cases flow with
      | normal => exact ih.execAll hss
      | returned value => exact .pure trivial

theorem loop_succ_blames {test : Expr} {body : Stmt} (htest : OnLines L test.places) (hbody : OnLines L body.places) :
    Blames L (loop (steps + 1) test body) := by
  unfold loop
  refine (ih.eval htest).bind fun holds _ => ?_
  split
  · refine (ih.exec hbody).bind fun flow _ => ?_
    cases flow with
    | normal => exact ih.loop htest hbody
    | returned value => exact .pure trivial
  · exact .pure trivial

end Succ

/-- **The tasks of the evaluator blame lines of their trees and of the heap.** -/
theorem tasksBlame (L : Nat → Prop) (steps : Nat) : TasksBlame L steps := by
  induction steps with
  | zero => constructor <;> intros <;> exact blames_exhausted
  | succ steps ih =>
      constructor
      · exact evaluate_succ_blames ih
      · exact evaluateAll_succ_blames ih
      · exact call_succ_blames ih
      · exact callWith_succ_blames ih
      · exact invoke_succ_blames ih
      · exact execute_succ_blames ih
      · exact executeAll_succ_blames ih
      · exact loop_succ_blames ih

/-! ## Programs -/

theorem executeTop_blames {L : Nat → Prop} (steps : Nat) {p : Program} (hp : OnLines L (Stmt.placesAll p)) :
    Blames L (executeTop steps p) := by
  induction steps generalizing p with
  | zero => exact blames_exhausted
  | succ steps ih =>
      cases p with
      | nil => exact .pure trivial
      | cons s p =>
          obtain ⟨hs, hp⟩ := onLines_append.mp hp
          exact ((tasksBlame L steps).exec hs).bind fun _ _ => ih hp

theorem finish_onLines {L : Nat → Prop} {m : Machine} (hm : m.heap.OnLines L) {result : Except RunError Unit}
    (hresult : ∀ e, result = .error e → (Halt.error e).OnLines L) : EndsOn L (fun _ => True) (m.finish result) := by
  unfold Machine.finish
  cases hfails : m.sink.flush.flushFails with
  | true =>
      simp only [hfails, if_true]
      exact ⟨hm, trivial⟩
  | false =>
      simp only [hfails, Bool.false_eq_true, if_false]
      cases result with
      | ok _ => exact ⟨hm, trivial⟩
      | error e => exact ⟨hm, hresult e rfl⟩

/-- **A program blames lines of its tree and of the heap.** -/
theorem interpret_blames {L : Nat → Prop} (steps : Nat) {p : Program} (hp : OnLines L (Stmt.placesAll p)) :
    Blames L (interpret steps p) := by
  intro m hm
  have htop := executeTop_blames steps hp m hm
  unfold interpret
  cases hr : executeTop steps p m with
  | ok _ m' =>
      rw [hr] at htop
      exact finish_onLines htop.1 nofun
  | error halt m' =>
      rw [hr] at htop
      cases halt with
      | error e =>
          refine finish_onLines htop.1 ?_
          rintro _ ⟨⟩
          exact htop.2
      | fault f => exact htop
      | exhausted => exact htop

end Scriptlet
