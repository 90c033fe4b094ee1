import Scriptlet.Proofs.Run.Continues
import Scriptlet.Proofs.Run.Upheld

/-!
# Runs on a sink with a limit

The same task is carried out on two sinks: one takes everything, and the other has room for some bytes only.  Up to the
print that exceeds the limit both runs do the same; there the second one ends.

* `Narrowing` — the two sinks, as a run finds them.
* `Narrowing.cut ν m` — the machine `m` with the limited sink, which has what fits of the output.
* `Narrowing.Crosses ν left e m` — a `print` of `e` on the machine `m` exceeds the limit.
* `Exec.Silent x` — the action does not touch the sink.
* `Exec.Truncates ν K x m` — on the limited sink, `x` does what it does on `m` if the output fits; otherwise the sink is
  full, and `K` holds of the machine that has crossed the limit.

Principal result: `tasksTruncate` — so do all tasks of the evaluator.
-/

set_option autoImplicit false

namespace Scriptlet

/-! ## Two sinks -/

/-- A sink that takes everything and a sink with room for so many more bytes; both can flush. -/
structure Narrowing where
  wide : Sink
  narrow : Sink
  room : Nat
  wide_limit : wide.limit = none
  narrow_limit : narrow.limit = some (narrow.written.size + room)
  wide_flush : wide.flushFails = false
  narrow_flush : narrow.flushFails = false

namespace Narrowing

/-- What a machine has written since the start of the run. -/
def output (ν : Narrowing) (m : Machine) : ByteArray := m.sink.since ν.wide.written.size

/-- The machine with the limited sink, which has the first bytes of the output. -/
def cut (ν : Narrowing) (m : Machine) : Machine :=
  { m with sink := { ν.narrow with written := ν.narrow.written ++ (ν.output m).extract 0 ν.room } }

/-- The output so far is within the limit. -/
def Fits (ν : Narrowing) (m : Machine) : Prop := (ν.output m).size ≤ ν.room

variable {ν : Narrowing} {m m' : Machine}

/-- What fits at some point has fitted before. -/
theorem Fits.of_continues (h : ν.wide.Continues m.sink) (hsink : m.sink.Continues m'.sink) (hfits : ν.Fits m') :
    ν.Fits m := by
  unfold Fits output at hfits ⊢
  rw [h.since hsink, ByteArray.size_append] at hfits
  exact Nat.le_of_add_right_le hfits

/-- What is written after the limit is crossed does not reach the limited sink. -/
theorem cut_sink_of_continues (h : ν.wide.Continues m.sink) (hsink : m.sink.Continues m'.sink) (hfull : ¬ ν.Fits m) :
    (ν.cut m').sink = (ν.cut m).sink := by
  have hover : ν.room - (ν.output m).size = 0 := Nat.sub_eq_zero_of_le (Nat.le_of_not_le hfull)
  have houtput : ν.output m' = ν.output m ++ m'.sink.since m.sink.written.size := h.since hsink
  unfold cut
  rw [houtput, ByteArray.extract_append, hover, Nat.zero_sub, ByteArray.extract_same, ByteArray.append_empty]

/-- At the start both runs have written nothing. -/
theorem cut_start (ν : Narrowing) (m : Machine) : ν.cut { m with sink := ν.wide } = { m with sink := ν.narrow } := by
  have hempty : (ByteArray.empty.extract 0 ν.room) = .empty := ByteArray.extract_eq_empty_iff.mpr (Nat.min_le_right _ _)
  simp only [cut, output, Sink.since, ByteArray.extract_same, hempty, ByteArray.append_empty]

theorem fits_start (ν : Narrowing) (m : Machine) : ν.Fits { m with sink := ν.wide } := by
  simp only [Fits, output, Sink.since, ByteArray.extract_same, ByteArray.size_empty, Nat.zero_le]

section Take

variable (h : ν.wide.Continues m.sink) (hfits : ν.Fits m) (bytes : ByteArray)
include h

theorem take_written : (m.sink.take bytes).written = m.sink.written ++ bytes := by
  have hlimit : m.sink.limit = none := h.limit.trans ν.wide_limit
  simp only [Sink.take, Sink.fitting, hlimit]

theorem output_take : ν.output { m with sink := m.sink.take bytes } = ν.output m ++ bytes := by
  have htaken : m.sink.Continues (m.sink.take bytes) := ⟨⟨bytes, take_written h bytes⟩, rfl, rfl⟩
  have houtput : ν.output { m with sink := m.sink.take bytes } =
      ν.output m ++ (m.sink.take bytes).since m.sink.written.size := h.since htaken
  rw [houtput, Sink.since, take_written h, ByteArray.size_append, ByteArray.extract_append_eq_right rfl rfl]

include hfits

/-- Both sinks take the same bytes, as far as they fit. -/
theorem cut_take :
    { ν.cut m with sink := (ν.cut m).sink.take bytes } = ν.cut { m with sink := m.sink.take bytes } := by
  have hroom : ν.narrow.written.size + ν.room - (ν.narrow.written ++ (ν.output m).extract 0 ν.room).size =
      ν.room - (ν.output m).size := by
    rw [ByteArray.size_append, ByteArray.size_extract, Nat.min_eq_right hfits, Nat.sub_zero, Nat.add_sub_add_left]
  unfold cut
  rw [output_take h]
  simp only [Sink.take, Sink.fitting, ν.narrow_limit, hroom, ByteArray.extract_append, Nat.zero_sub,
    ByteArray.append_assoc]

theorem cut_hasRoom :
    (ν.cut m).sink.hasRoom bytes.size = true ↔ ν.Fits { m with sink := m.sink.take bytes } := by
  unfold Fits
  rw [output_take h, ByteArray.size_append]
  simp only [Sink.hasRoom, cut, ν.narrow_limit, ByteArray.size_append, ByteArray.size_extract,
    Nat.min_eq_right hfits, decide_eq_true_eq]
  omega

end Take

/-- A `print` whose operand has a value, and whose line exceeds the limit. -/
def Crosses (ν : Narrowing) (left : Nat) (e : Expr) (m : Machine) : Prop :=
  ∃ v m₁, evaluate left e m = .ok v m₁ ∧ ν.Fits m₁ ∧ ¬ ν.Fits ((execute (left + 1) (.print e)).leaves m)

/-- What a `print` leaves that exceeds the limit in the run from a point, in whatever scope. -/
def Crossed (ν : Narrowing) (P : Point) (c : Machine) : Prop :=
  ∃ left e m i, P.Visits ⟨left + 1, .exec (.print e), m⟩ ∧ ν.Crosses left e m ∧
    c = { (execute (left + 1) (.print e)).leaves m with current := i }

end Narrowing

/-! ## Actions -/

namespace Exec

/-- The result with another machine. -/
def mapMachine {α : Type} (g : Machine → Machine) : EStateM.Result Halt Machine α → EStateM.Result Halt Machine α
  | .ok a m => .ok a (g m)
  | .error halt m => .error halt (g m)

/-- The action does not touch the sink. -/
def Silent {α : Type} (x : Exec α) : Prop :=
  ∀ (m : Machine) (k : Sink), x { m with sink := k } = mapMachine (fun m' => { m' with sink := k }) (x m)

section Silent

variable {α β : Type} {x : Exec α} {f : α → Exec β}

theorem Silent.bind (hx : x.Silent) (hf : ∀ a, (f a).Silent) : (x >>= f).Silent := by
  intro m k
  have hfirst := hx m k
  simp only [Bind.bind, EStateM.bind]
  cases hr : x m with
  | ok a m' =>
      rw [hr] at hfirst
      simp only [hfirst, mapMachine]
      exact hf a m' k
  | error halt m' =>
      rw [hr] at hfirst
      simp only [hfirst, mapMachine]

theorem silent_pure (a : α) : Silent (pure a) := fun _ _ => rfl

theorem silent_read (q : Heap → α) : Silent (read q) := fun _ _ => rfl

theorem silent_fail (line : Nat) (fault : ScriptFault) : Silent (fail (α := α) line fault) := fun _ _ => rfl

theorem silent_orFail (line : Nat) (result : Except ScriptFault α) : Silent (orFail line result) := by
  cases result with
  | ok a => exact silent_pure a
  | error fault => exact silent_fail line fault

theorem silent_readAt (scope : ScopeId) (distance : Nat) (name : String) : Silent (readAt scope distance name) := by
  intro m k
  unfold readAt
  simp only
  cases m.heap.readAt scope distance name <;> rfl

theorem silent_lookUp (id : NodeId) (name : Ident) : Silent (lookUp id name) := by
  intro m k
  unfold lookUp
  simp only
  cases m.table.distance? id with
  | some distance => exact silent_readAt m.current distance name.name m k
  | none => cases m.heap.search? globalScope name.name <;> rfl

theorem silent_assignFrom (scope : ScopeId) (name : Ident) (value : Value) : Silent (assignFrom scope name value) := by
  intro m k
  unfold assignFrom
  simp only
  cases m.heap.owner? scope name.name <;> rfl

theorem silent_assign (id : NodeId) (name : Ident) (value : Value) : Silent (assign id name value) := by
  intro m k
  unfold assign
  simp only
  cases m.table.distance? id with
  | none => exact silent_assignFrom globalScope name value m k
  | some distance =>
      simp only
      cases m.heap.ancestor? m.current distance <;> rfl

theorem silent_newScope (enclosing : ScopeId) (names : Bindings) : Silent (newScope enclosing names) := fun _ _ => rfl

theorem silent_bindMethod (method : Function) (object : ObjectId) : Silent (bindMethod method object) :=
  fun _ _ => rfl

theorem silent_callNative (id : NativeId) (args : List Value) (line : Nat) : Silent (callNative id args line) := by
  intro m k
  unfold callNative
  simp only
  cases (m.heap.native id).run (m.clock m.ticks) args <;> rfl

theorem silent_property (object : Value) (name : Ident) : Silent (property object name) := by
  unfold property
  cases object with
  | object i =>
      refine (silent_read _).bind fun field => ?_
      cases field with
      | some value => exact silent_pure value
      | none =>
          refine (silent_read _).bind fun found => ?_
          cases found with
          | some method => exact (silent_bindMethod method i).bind fun bound _ _ => rfl
          | none => exact silent_fail _ _
  | null | bool | number | string | array | function | native | classRef => exact silent_fail _ _

theorem silent_declareFunction (decl : FunctionDecl) : Silent (declareFunction decl) := fun _ _ => rfl

theorem silent_declareClass (name : Ident) (methods : List FunctionDecl) : Silent (declareClass name methods) := by
  unfold declareClass
  refine Silent.bind (fun _ _ => rfl) fun _ => Silent.bind (fun _ _ => rfl) fun scope => ?_
  exact Silent.bind (fun _ _ => rfl) fun cls => silent_assignFrom scope name cls

end Silent

/-- On the limited sink, the action does the same if its output fits.  Otherwise it ends with a full sink, in a machine
of which `K` holds without a limit, and whose output the rest of the action continues. -/
structure Truncates {α : Type} (ν : Narrowing) (K : Machine → Prop) (x : Exec α) (m : Machine) : Prop where
  grows : m.sink.Continues (x.leaves m).sink
  fits : ν.wide.Continues m.sink → ν.Fits (x.leaves m) → x (ν.cut m) = mapMachine ν.cut (x m)
  full : ν.wide.Continues m.sink → ν.Fits m → ¬ ν.Fits (x.leaves m) →
    ∃ c, K c ∧ c.sink.Continues (x.leaves m).sink ∧ x (ν.cut m) = .error (.error (.sink .full)) (ν.cut c)

section Truncates

variable {α β : Type} {ν : Narrowing} {K : Machine → Prop} {x : Exec α} {f : α → Exec β} {m : Machine}

theorem Silent.leaves_sink (hx : x.Silent) (m : Machine) : (x.leaves m).sink = m.sink := by
  have hself : x m = mapMachine (fun m' => { m' with sink := m.sink }) (x m) := hx m m.sink
  unfold leaves
  cases hr : x m with
  | ok a m' | error halt m' =>
      rw [hr] at hself
      injection hself with _ hm'
      have hsink := congrArg Machine.sink hm'
      exact hsink

theorem Silent.truncates (hx : x.Silent) : Truncates ν K x m := by
  have hsink := hx.leaves_sink m
  refine ⟨hsink ▸ .refl _, fun _ _ => ?_, fun _ hfits hfull => ?_⟩
  · have hcut : x (ν.cut m) = mapMachine (fun m' => { m' with sink := (ν.cut m).sink }) (x m) := hx m _
    rw [hcut]
    unfold leaves at hsink
    cases hr : x m with
    | ok a m' | error halt m' =>
        rw [hr] at hsink
        simp only [mapMachine, Narrowing.cut, Narrowing.output, hsink]
  · refine absurd ?_ hfull
    unfold Narrowing.Fits Narrowing.output at hfits ⊢
    rwa [hsink]

/-- **Truncated actions compose**: once the limit is crossed, what would follow is not carried out. -/
theorem Truncates.bind (hx : Truncates ν K x m) (hf : ∀ a m₁, x m = .ok a m₁ → Truncates ν K (f a) m₁) :
    Truncates ν K (x >>= f) m := by
  cases hr : x m with
  | error halt m₁ =>
      have hleaves := leaves_bind_of_error (f := f) hr
      refine ⟨hleaves ▸ hx.grows, fun hwide hfits => ?_, fun hwide hfits hfull => ?_⟩
      · have hcut := hx.fits hwide (hleaves ▸ hfits)
        rw [hr] at hcut
        rw [bind_of_error hcut, bind_of_error hr]
        rfl
      · obtain ⟨c, hc, hsink, hcut⟩ := hx.full hwide hfits (hleaves ▸ hfull)
        exact ⟨c, hc, hleaves ▸ hsink, bind_of_error hcut⟩
  | ok a m₁ =>
      have hrest := hf a m₁ hr
      have hgrows := hx.grows
      rw [leaves_of_ok hr] at hgrows
      have hleaves := leaves_bind_of_ok (f := f) hr
      refine ⟨hleaves ▸ hgrows.trans hrest.grows, fun hwide hfits => ?_, fun hwide hfits hfull => ?_⟩
      · rw [hleaves] at hfits
        have hwide₁ := hwide.trans hgrows
        have hfits₁ : ν.Fits m₁ := hfits.of_continues hwide₁ hrest.grows
        have hcut := hx.fits hwide (leaves_of_ok hr ▸ hfits₁)
        rw [hr] at hcut
        rw [bind_of_ok hcut, bind_of_ok hr]
        exact hrest.fits hwide₁ hfits
      · rw [hleaves] at hfull ⊢
        by_cases hfits₁ : ν.Fits m₁
        · have hcut := hx.fits hwide (leaves_of_ok hr ▸ hfits₁)
          rw [hr] at hcut
          rw [bind_of_ok hcut]
          exact hrest.full (hwide.trans hgrows) hfits₁ hfull
        · -- The limit is crossed before the second action starts.
          obtain ⟨c, hc, hsink, hcut⟩ := hx.full hwide hfits (leaves_of_ok hr ▸ hfits₁)
          rw [leaves_of_ok hr] at hsink
          exact ⟨c, hc, hsink.trans hrest.grows, bind_of_error hcut⟩

theorem Truncates.inScope {scope : ScopeId} (hK : ∀ c i, K c → K { c with current := i })
    (hx : Truncates ν K x { m with current := scope }) : Truncates ν K (inScope scope x) m := by
  have hleaves := leaves_inScope scope x m
  refine ⟨hleaves ▸ hx.grows, fun hwide hfits => ?_, fun hwide hfits hfull => ?_⟩
  · rw [hleaves] at hfits
    have hcut : x { ν.cut m with current := scope } = _ := hx.fits hwide hfits
    unfold Exec.inScope
    simp only [hcut]
    cases x { m with current := scope } <;> rfl
  · rw [hleaves] at hfull ⊢
    obtain ⟨c, hc, hsink, hcut⟩ := hx.full hwide hfits hfull
    have hcut' : x { ν.cut m with current := scope } = .error (.error (.sink .full)) (ν.cut c) := hcut
    refine ⟨{ c with current := m.current }, hK c _ hc, hsink, ?_⟩
    unfold Exec.inScope
    simp only [hcut']
    rfl

/-- The machine that a text leaves that is written without a limit. -/
theorem write_wide (hwide : ν.wide.Continues m.sink) (text : String) :
    write text m = .ok () { m with sink := m.sink.take text.toUTF8 } := by
  have hlimit : m.sink.limit = none := hwide.limit.trans ν.wide_limit
  simp only [write, Sink.hasRoom, hlimit, if_true]

/-- A text that exceeds the limit is written as far as it fits, and the sink is full. -/
theorem write_cut (hwide : ν.wide.Continues m.sink) (hfits : ν.Fits m) {text : String}
    (hfull : ¬ ν.Fits { m with sink := m.sink.take text.toUTF8 }) :
    write text (ν.cut m) = .error (.error (.sink .full)) (ν.cut { m with sink := m.sink.take text.toUTF8 }) := by
  have hroom : (ν.cut m).sink.hasRoom text.toUTF8.size = false :=
    Bool.eq_false_iff.mpr fun hroom => hfull ((Narrowing.cut_hasRoom hwide hfits text.toUTF8).mp hroom)
  unfold write
  simp only [hroom, Bool.false_eq_true, if_false, Narrowing.cut_take hwide hfits]

/-- **Where a text is written the limit may be crossed.** -/
theorem truncates_write {text : String}
    (hK : ν.wide.Continues m.sink → ν.Fits m → ¬ ν.Fits { m with sink := m.sink.take text.toUTF8 } →
      K { m with sink := m.sink.take text.toUTF8 }) :
    Truncates ν K (write text) m := by
  have hgrows : m.sink.Continues (m.sink.take text.toUTF8) := ⟨⟨_, rfl⟩, rfl, rfl⟩
  have hsink : ((write text).leaves m).sink = m.sink.take text.toUTF8 := by
    unfold leaves write
    cases hroom : m.sink.hasRoom text.toUTF8.size <;> simp only [hroom] <;> rfl
  refine ⟨hsink ▸ hgrows, fun hwide hfits => ?_, fun hwide hfits hfull => ?_⟩
  · rw [leaves_of_ok (write_wide hwide text)] at hfits
    have hbefore : ν.Fits m := hfits.of_continues hwide hgrows
    have hroom := (Narrowing.cut_hasRoom hwide hbefore text.toUTF8).mpr hfits
    rw [write_wide hwide]
    unfold write
    simp only [hroom, if_true, Narrowing.cut_take hwide hbefore, mapMachine]
  · rw [leaves_of_ok (write_wide hwide text)] at hfull ⊢
    exact ⟨_, hK hwide hfits hfull, .refl _, write_cut hwide hfits hfull⟩

end Truncates

end Exec

/-! ## Tasks -/

open Exec Narrowing

/-- All tasks that the run from a point comes to are truncated. -/
structure TasksTruncate (ν : Narrowing) (P : Point) (steps : Nat) : Prop where
  eval : ∀ {e m}, P.Visits ⟨steps, .eval e, m⟩ → Truncates ν (ν.Crossed P) (evaluate steps e) m
  evalAll : ∀ {es m}, P.Visits ⟨steps, .evalAll es, m⟩ → Truncates ν (ν.Crossed P) (evaluateAll steps es) m
  call : ∀ {callee args line m}, P.Visits ⟨steps, .call callee args line, m⟩ →
    Truncates ν (ν.Crossed P) (call steps callee args line) m
  callWith : ∀ {callee args line m}, P.Visits ⟨steps, .callWith callee args line, m⟩ →
    Truncates ν (ν.Crossed P) (callWith steps callee args line) m
  invoke : ∀ {f args m}, P.Visits ⟨steps, .invoke f args, m⟩ → Truncates ν (ν.Crossed P) (invoke steps f args) m
  exec : ∀ {s m}, P.Visits ⟨steps, .exec s, m⟩ → Truncates ν (ν.Crossed P) (execute steps s) m
  execAll : ∀ {ss m}, P.Visits ⟨steps, .execAll ss, m⟩ → Truncates ν (ν.Crossed P) (executeAll steps ss) m
  loop : ∀ {test body m}, P.Visits ⟨steps, .loop test body, m⟩ → Truncates ν (ν.Crossed P) (loop steps test body) m

section Succ

variable {ν : Narrowing} {P : Point} {steps : Nat} {m : Machine}

theorem Narrowing.Crossed.inScope (c : Machine) (i : ScopeId) (h : ν.Crossed P c) :
    ν.Crossed P { c with current := i } := by
  obtain ⟨left, e, m, _, hvisit, hcrosses, rfl⟩ := h
  exact ⟨left, e, m, i, hvisit, hcrosses, rfl⟩

theorem evaluate_truncates (ih : TasksTruncate ν P steps) {e : Expr} (hv : P.Visits ⟨steps + 1, .eval e, m⟩) :
    Truncates ν (ν.Crossed P) (evaluate (steps + 1) e) m := by
  unfold evaluate
  cases e with
  | lit value => exact (silent_pure _).truncates
  | group inner => exact ih.eval (hv.calls .group)
  | unary op operand => exact (ih.eval (hv.calls .unary)).bind fun a m₁ _ => (silent_orFail _ _).truncates
  | binary op left right =>
      refine (ih.eval (hv.calls .binaryLeft)).bind fun a m₁ hl => ?_
      refine (ih.eval (hv.calls (.binaryRight hl))).bind fun b m₂ _ => ?_
      exact ((silent_read _).bind fun result => silent_orFail _ result).truncates
  | logical op left right =>
      refine (ih.eval (hv.calls .logicalLeft)).bind fun a m₁ hl => ?_
      exact (ih.eval (hv.calls (.logicalRight hl))).bind fun b m₂ _ => (silent_orFail _ _).truncates
  | ternary test whenTrue whenFalse =>
      refine (ih.eval (hv.calls .ternaryTest)).bind fun a m₁ htest => ?_
      split
      · rename_i hholds
        exact ih.eval (hv.calls (.ternaryTrue htest hholds))
      · rename_i hfails
        exact ih.eval (hv.calls (.ternaryFalse htest (Bool.eq_false_iff.mpr hfails)))
  | var id name => exact (silent_lookUp id name).truncates
  | this id line => exact (silent_lookUp id ⟨thisName, line⟩).truncates
  | assign id name value =>
      refine (ih.eval (hv.calls .assignValue)).bind fun a m₁ _ => ?_
      exact ((silent_assign id name a).bind fun _ => silent_pure a).truncates
  | update id name op operand =>
      refine (ih.eval (hv.calls .updateOperand)).bind fun a m₁ _ => Silent.truncates ?_
      refine (silent_lookUp id name).bind fun old => (silent_read _).bind fun result => ?_
      exact (silent_orFail _ result).bind fun new => (silent_assign id name new).bind fun _ => silent_pure _
  | array items => exact (ih.evalAll (hv.calls .array)).bind fun values m₁ _ => Silent.truncates fun _ _ => rfl
  | index target line position =>
      refine (ih.eval (hv.calls .indexPosition)).bind fun a m₁ hl => ?_
      refine (ih.eval (hv.calls (.indexTarget hl))).bind fun b m₂ _ => ?_
      exact ((silent_read _).bind fun result => silent_orFail _ result).truncates
  | call callee line args =>
      refine (ih.eval (hv.calls .callee)).bind fun f m₁ hf => ?_
      refine (ih.evalAll (hv.calls (.arguments hf))).bind fun values m₂ hargs => ?_
      exact ih.call (hv.calls (.call hf hargs))
  | get object name => exact (ih.eval (hv.calls .get)).bind fun a m₁ _ => (silent_property a name).truncates
  | set object name value =>
      refine (ih.eval (hv.calls .setObject)).bind fun a m₁ hobject => ?_
      cases a with
      | object i =>
          refine (ih.eval (hv.calls (.setValue hobject))).bind fun b m₂ _ => ?_
          exact Silent.truncates fun _ _ => rfl
      | null | bool | number | string | array | function | native | classRef => exact (silent_fail _ _).truncates

theorem evaluateAll_truncates (ih : TasksTruncate ν P steps) {es : List Expr}
    (hv : P.Visits ⟨steps + 1, .evalAll es, m⟩) : Truncates ν (ν.Crossed P) (evaluateAll (steps + 1) es) m := by
  cases es with
  | nil => exact (silent_pure _).truncates
  | cons e es =>
      unfold evaluateAll
      refine (ih.eval (hv.calls .firstValue)).bind fun a m₁ hl => ?_
      exact (ih.evalAll (hv.calls (.otherValues hl))).bind fun values m₂ _ => (silent_pure _).truncates

theorem call_truncates (ih : TasksTruncate ν P steps) {callee : Value} {args : List Value} {line : Nat}
    (hv : P.Visits ⟨steps + 1, .call callee args line, m⟩) :
    Truncates ν (ν.Crossed P) (call (steps + 1) callee args line) m := by
  unfold Scriptlet.call
  refine (silent_read _).truncates.bind fun found m₁ hfound => ?_
  injection hfound with harity hm₁
  subst hm₁
  cases found with
  | none => exact (silent_fail _ _).truncates
  | some arity =>
      simp only
      split
      · exact (silent_fail _ _).truncates
      · rename_i hlength
        exact ih.callWith (hv.calls (.callWith (Decidable.not_not.mp hlength ▸ harity)))

theorem callWith_truncates (ih : TasksTruncate ν P steps) {callee : Value} {args : List Value} {line : Nat}
    (hv : P.Visits ⟨steps + 1, .callWith callee args line, m⟩) :
    Truncates ν (ν.Crossed P) (callWith (steps + 1) callee args line) m := by
  unfold Scriptlet.callWith
  cases callee with
  | native id => exact (silent_callNative id args line).truncates
  | function id =>
      refine (silent_read _).truncates.bind fun f m₁ hf => ?_
      cases hf
      exact ih.invoke (hv.calls .invoke)
  | classRef id =>
      refine Truncates.bind (Silent.truncates fun _ _ => rfl) fun object m₁ hobject => ?_
      refine (silent_read _).truncates.bind fun found m₂ hfound => ?_
      injection hfound with hmethod hm₂
      subst hm₂
      cases found with
      | none => exact (silent_pure _).truncates
      | some method =>
          refine (silent_bindMethod method object).truncates.bind fun bound m₃ hbound => ?_
          refine (ih.invoke (hv.calls (.construct hobject hmethod hbound))).bind fun _ m₄ _ => ?_
          exact (silent_pure _).truncates
  | null | bool | number | string | array | object => exact (silent_fail _ _).truncates

theorem invoke_truncates (ih : TasksTruncate ν P steps) {f : Function} {args : List Value}
    (hv : P.Visits ⟨steps + 1, .invoke f args, m⟩) : Truncates ν (ν.Crossed P) (invoke (steps + 1) f args) m := by
  unfold Scriptlet.invoke
  refine (silent_newScope _ _).truncates.bind fun scope m₁ hscope => ?_
  refine ((ih.execAll (hv.calls (.body hscope))).inScope Crossed.inScope).bind fun flow m₂ _ => Silent.truncates ?_
  cases f.isInitializer with
  | true => exact silent_readAt f.closure 0 thisName
  | false => cases flow <;> exact silent_pure _

/-- What a `print` leaves without a limit. -/
theorem leaves_print {e : Expr} {v : Value} {m₁ : Machine} (hvalue : evaluate steps e m = .ok v m₁)
    (hwide : ν.wide.Continues m₁.sink) : (execute (steps + 1) (.print e)).leaves m =
      { m₁ with sink := m₁.sink.take (m₁.heap.text v ++ "\n").toUTF8 } := by
  refine leaves_of_ok (a := .normal) ?_
  unfold execute
  exact (bind_of_ok hvalue).trans (bind_of_ok (write_wide hwide _))

/-- A `print` crosses the limit itself, or its operand does. -/
theorem print_truncates (ih : TasksTruncate ν P steps) {e : Expr} (hv : P.Visits ⟨steps + 1, .exec (.print e), m⟩) :
    Truncates ν (ν.Crossed P) (execute (steps + 1) (.print e)) m := by
  unfold execute
  refine (ih.eval (hv.calls .print)).bind fun a m₁ ha => (silent_read _).truncates.bind fun text m₂ htext => ?_
  cases htext
  refine (truncates_write fun hwide hfits hfull => ?_).bind fun _ _ _ => (silent_pure _).truncates
  have hleaves := leaves_print ha hwide
  refine ⟨steps, e, m, m₁.current, hv, ⟨a, m₁, ha, hfits, ?_⟩, ?_⟩
  · rw [hleaves]
    exact hfull
  · rw [hleaves]

theorem execute_truncates (ih : TasksTruncate ν P steps) {s : Stmt} (hv : P.Visits ⟨steps + 1, .exec s, m⟩) :
    Truncates ν (ν.Crossed P) (execute (steps + 1) s) m := by
  cases s with
  | print e => exact print_truncates ih hv
  | expr e =>
      unfold execute
      exact (ih.eval (hv.calls .expr)).bind fun _ m₁ _ => (silent_pure _).truncates
  | var name init =>
      unfold execute
      cases init with
      | none => exact Silent.truncates fun _ _ => rfl
      | some init => exact (ih.eval (hv.calls .init)).bind fun a m₁ _ => Silent.truncates fun _ _ => rfl
  | block body =>
      unfold execute
      refine Truncates.bind (Silent.truncates fun _ _ => rfl) fun current m₁ hcurrent => ?_
      cases hcurrent
      refine (silent_newScope _ _).truncates.bind fun scope m₂ hscope => ?_
      exact (ih.execAll (hv.calls (.block hscope))).inScope Crossed.inScope
  | ifElse test whenTrue whenFalse =>
      unfold execute
      refine (ih.eval (hv.calls .ifTest)).bind fun a m₁ htest => ?_
      split
      · rename_i hholds
        exact ih.exec (hv.calls (.ifTrue htest hholds))
      · rename_i hfails
        cases whenFalse with
        | none => exact (silent_pure _).truncates
        | some whenFalse => exact ih.exec (hv.calls (.ifFalse htest (Bool.eq_false_iff.mpr hfails)))
  | whileLoop test body =>
      unfold execute
      exact ih.loop (hv.calls .whileLoop)
  | function decl =>
      unfold execute
      exact ((silent_declareFunction decl).bind fun _ => silent_pure _).truncates
  | classDecl name methods =>
      unfold execute
      exact ((silent_declareClass name methods).bind fun _ => silent_pure _).truncates
  | ret line value =>
      unfold execute
      cases value with
      | none => exact (silent_pure _).truncates
      | some value => exact (ih.eval (hv.calls .ret)).bind fun a m₁ _ => (silent_pure _).truncates

theorem executeAll_truncates (ih : TasksTruncate ν P steps) {ss : List Stmt}
    (hv : P.Visits ⟨steps + 1, .execAll ss, m⟩) : Truncates ν (ν.Crossed P) (executeAll (steps + 1) ss) m := by
  cases ss with
  | nil => exact (silent_pure _).truncates
  | cons s ss =>
      unfold executeAll
      refine (ih.exec (hv.calls .firstStmt)).bind fun flow m₁ hfirst => ?_
      cases flow with
      | normal => exact ih.execAll (hv.calls (.otherStmts hfirst))
      | returned value => exact (silent_pure _).truncates

theorem loop_truncates (ih : TasksTruncate ν P steps) {test : Expr} {body : Stmt}
    (hv : P.Visits ⟨steps + 1, .loop test body, m⟩) :
    Truncates ν (ν.Crossed P) (loop (steps + 1) test body) m := by
  unfold Scriptlet.loop
  refine (ih.eval (hv.calls .loopTest)).bind fun a m₁ htest => ?_
  split
  · rename_i hholds
    refine (ih.exec (hv.calls (.loopBody htest hholds))).bind fun flow m₂ hbody => ?_
    cases flow with
    | normal => exact ih.loop (hv.calls (.loopAgain htest hholds hbody))
    | returned value => exact (silent_pure _).truncates
  · exact (silent_pure _).truncates

end Succ

/-- **Every task of a run is truncated on the limited sink.** -/
theorem tasksTruncate (ν : Narrowing) (P : Point) (steps : Nat) : TasksTruncate ν P steps := by
  induction steps with
  | zero =>
      constructor <;> intros <;> exact Silent.truncates fun _ _ => rfl
  | succ steps ih =>
      exact ⟨evaluate_truncates ih, evaluateAll_truncates ih, call_truncates ih, callWith_truncates ih,
        invoke_truncates ih, execute_truncates ih, executeAll_truncates ih, loop_truncates ih⟩

/-- So are the statements of a program. -/
theorem executeTop_truncates (ν : Narrowing) (P : Point) (steps : Nat) (p : Program) (m : Machine)
    (hv : P.Visits ⟨steps, .top p, m⟩) : Truncates ν (ν.Crossed P) (executeTop steps p) m := by
  induction steps generalizing p m with
  | zero => exact Silent.truncates fun _ _ => rfl
  | succ steps ih =>
      cases p with
      | nil => exact (silent_pure _).truncates
      | cons s rest =>
          unfold executeTop
          refine ((tasksTruncate ν P steps).exec (hv.calls .topFirst)).bind fun flow m₁ hfirst => ?_
          exact ih rest m₁ (hv.calls (.topOthers hfirst))

end Scriptlet
