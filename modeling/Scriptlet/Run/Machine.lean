import Scriptlet.Run.Sink
import Scriptlet.Scope.Distance
import Scriptlet.Value.Text

/-!
# The machine

A `Machine` is the state of a running script: the heap, the current scope, the distances of local references, the
sink and the clock.  `Exec` actions read and change it, and may end early with a `Halt`; the state reached
by then is kept.  The clock is a sequence of readings, of which each call of a native function takes the next.

The actions here are the only ways in which evaluation touches the machine.
-/

set_option autoImplicit false

namespace Scriptlet

/-- The root scope in which top-level names live. -/
def globalScope : ScopeId := 0

/-- The state of a running script. -/
structure Machine where
  heap : Heap
  /-- The scope in which names are declared and from which distances are counted. -/
  current : ScopeId
  table : DistanceTable
  sink : Sink
  /-- The readings of the clock. -/
  clock : Nat → Float
  /-- The number of readings taken. -/
  ticks : Nat

/-- The native function that yields the time in seconds. -/
def NativeFunction.clock : NativeFunction := ⟨"clock", 0, fun now _ => .ok (.number now)⟩

/-- A machine that has run nothing. -/
def Machine.initial (sink : Sink) (clock : Nat → Float) : Machine :=
  let heap := (Heap.empty.addNative .clock).define globalScope "clock" (.native 0)
  ⟨heap, globalScope, .empty, sink, clock, 0⟩

/-- An action on the machine. -/
abbrev Exec := EStateM Halt Machine

namespace Exec

/-- Ends the run with an error of the script. -/
def fail {α : Type} (line : Nat) (fault : ScriptFault) : Exec α := throw (.error (.script line fault))

/-- Ends the run because its steps are used up. -/
def exhausted {α : Type} : Exec α := throw .exhausted

/-- The value of a computation that may fail, as an error at a line. -/
def orFail {α : Type} (line : Nat) : Except ScriptFault α → Exec α
  | .ok a => pure a
  | .error fault => fail line fault

/-- A computation on the heap that reads only. -/
@[inline] def read {α : Type} (f : Heap → α) : Exec α := fun m => .ok (f m.heap) m

/-- Changes the heap. -/
@[inline] def change (f : Heap → Heap) : Exec Unit := fun m => .ok () { m with heap := f m.heap }

/-! ## Names -/

/-- The current scope. -/
def currentScope : Exec ScopeId := fun m => .ok m.current m

/-- Declares a name in the current scope. -/
def define (name : String) (value : Value) : Exec Unit := fun m =>
  let scope := m.current
  .ok () { m with heap := m.heap.define scope name value }

/-- Reads a name at a distance from a scope. -/
def readAt (scope : ScopeId) (distance : Nat) (name : String) : Exec Value := fun m =>
  match m.heap.readAt scope distance name with
  | .ok value => .ok value m
  | .error f => .error (.fault f) m

/-- The value of a reference. -/
def lookUp (id : NodeId) (name : Ident) : Exec Value := fun m =>
  match m.table.distance? id with
  | some distance => readAt m.current distance name.name m
  | none =>
      match m.heap.search? globalScope name.name with
      | some value => .ok value m
      | none => .error (.error (.script name.line (.undefinedVariable name.name))) m

/-- Searches outward from a scope for a name and assigns to it. -/
def assignFrom (scope : ScopeId) (name : Ident) (value : Value) : Exec Unit := fun m =>
  match m.heap.owner? scope name.name with
  | some owner => .ok () { m with heap := m.heap.define owner name.name value }
  | none => .error (.error (.script name.line (.undefinedVariable name.name))) m

/-- Assigns to a reference. -/
def assign (id : NodeId) (name : Ident) (value : Value) : Exec Unit := fun m =>
  match m.table.distance? id with
  | some distance =>
      match m.heap.ancestor? m.current distance with
      | some owner => .ok () { m with heap := m.heap.define owner name.name value }
      | none => .error (.fault .missingScope) m
  | none => assignFrom globalScope name value m

/-! ## Allocation -/

/-- Allocates a scope inside another. -/
def newScope (enclosing : ScopeId) (names : Bindings) : Exec ScopeId := fun m =>
  .ok m.heap.scopes.size { m with heap := m.heap.addScope ⟨some enclosing, names⟩ }

/-- Allocates an array. -/
def newArray (items : List Value) : Exec Value := fun m =>
  .ok (.array m.heap.arrays.size) { m with heap := m.heap.addArray items }

/-- Allocates a function. -/
def newFunction (f : Function) : Exec Value := fun m =>
  .ok (.function m.heap.functions.size) { m with heap := m.heap.addFunction f }

/-- Allocates a class. -/
def newClass (c : Class) : Exec Value := fun m =>
  .ok (.classRef m.heap.classes.size) { m with heap := m.heap.addClass c }

/-- Allocates an instance of a class. -/
def newObject (c : ClassId) : Exec ObjectId := fun m =>
  .ok m.heap.objects.size { m with heap := m.heap.addObject ⟨c, []⟩ }

/-- A method bound to an object: its closure becomes a new scope that binds `this`. -/
def bindMethod (method : Function) (object : ObjectId) : Exec Function := do
  let scope ← newScope method.closure [(thisName, .object object)]
  return { method with closure := scope }

/-! ## Scopes, output and the host -/

/-- Runs an action in another scope; afterwards the scope is the same as before. -/
@[inline] def inScope {α : Type} (scope : ScopeId) (action : Exec α) : Exec α := fun m =>
  let previous := m.current
  match action { m with current := scope } with
  | .ok a m' => .ok a { m' with current := previous }
  | .error e m' => .error e { m' with current := previous }

/-- Writes a text to the sink; what does not fit is an error. -/
def write (text : String) : Exec Unit := fun m =>
  let bytes := text.toUTF8
  let fits := m.sink.hasRoom bytes.size
  let m := { m with sink := m.sink.take bytes }
  if fits then .ok () m else .error (.error (.sink .full)) m

/-- Calls a native function. -/
def callNative (id : NativeId) (args : List Value) (line : Nat) : Exec Value := fun m =>
  let result := (m.heap.native id).run (m.clock m.ticks) args
  let m := { m with ticks := m.ticks + 1 }
  match result with
  | .ok value => .ok value m
  | .error text => .error (.error (.script line (.native text))) m

end Exec

end Scriptlet
