import Scriptlet.Value.Basic

/-!
# The heap

The heap holds whatever has an identity: scopes, arrays, functions, classes, objects and native functions,
each kind in a table of its own.  Allocation adds an entry at the end of a table; no entry is ever removed.  Of an
entry only the bindings of a scope and the fields of an object can change.
-/

set_option autoImplicit false

namespace Scriptlet

/-- Values by name; each name occurs once. -/
abbrev Bindings := List (String × Value)

namespace Bindings

/-- The value of a name. -/
def get? (names : Bindings) (name : String) : Option Value := names.lookup name

/-- Whether a name is bound. -/
def binds (names : Bindings) (name : String) : Bool := (names.get? name).isSome

/-- Binds a name, in place of an earlier binding. -/
def insert (name : String) (value : Value) : Bindings → Bindings
  | [] => [(name, value)]
  | (key, old) :: rest =>
      if key = name then (key, value) :: rest else (key, old) :: Bindings.insert name value rest

/-- The bindings of parameters to arguments. -/
def ofParameters (params : List Ident) (args : List Value) : Bindings :=
  (params.zip args).foldl (fun names (param, arg) => names.insert param.name arg) []

end Bindings

/-- A scope at run time. -/
structure Scope where
  /-- The scope around this one, `none` for a root. -/
  enclosing : Option ScopeId
  names : Bindings

/-- A function with the scope it was declared in. -/
structure Function where
  decl : FunctionDecl
  closure : ScopeId
  /-- Whether a call yields the instance instead of the returned value. -/
  isInitializer : Bool

/-- The name of a function. -/
def Function.name (f : Function) : String := f.decl.name.name

/-- The number of arguments a function takes. -/
def Function.arity (f : Function) : Nat := f.decl.arity

/-- A class: a name and its methods. -/
structure Class where
  name : String
  /-- The methods by name, the latest declared first. -/
  methods : List (String × Function)

namespace Class

/-- The method of a name; of two methods of one name the later one counts. -/
def method? (c : Class) (name : String) : Option Function := c.methods.lookup name

/-- The number of arguments that the construction of an instance takes. -/
def arity (c : Class) : Nat := ((c.method? constructorName).map Function.arity).getD 0

end Class

/-- An instance of a class. -/
structure Object where
  cls : ClassId
  fields : Bindings

/-- A function provided by the host.  It sees a reading of the clock and its arguments, and yields a value or
the text of a failure. -/
structure NativeFunction where
  name : String
  arity : Nat
  run : Float → List Value → Except String Value

/-- The heap. -/
structure Heap where
  scopes : Array Scope
  arrays : Array (List Value)
  functions : Array Function
  classes : Array Class
  objects : Array Object
  natives : Array NativeFunction

namespace Heap

/-- A heap with one root scope and nothing else. -/
def empty : Heap := ⟨#[⟨none, []⟩], #[], #[], #[], #[], #[]⟩

/-! ## Reading -/

/-- A scope; positions past the end read as an empty root. -/
def scope (h : Heap) (i : ScopeId) : Scope := h.scopes.getD i ⟨none, []⟩

/-- The elements of an array. -/
def array (h : Heap) (i : ArrayId) : List Value := h.arrays.getD i []

/-- A function. -/
def function (h : Heap) (i : FunctionId) : Function :=
  h.functions.getD i ⟨.mk ⟨"", 0⟩ [] [], 0, false⟩

/-- A class. -/
def cls (h : Heap) (i : ClassId) : Class := h.classes.getD i ⟨"", []⟩

/-- An object. -/
def object (h : Heap) (i : ObjectId) : Object := h.objects.getD i ⟨0, []⟩

/-- A native function. -/
def native (h : Heap) (i : NativeId) : NativeFunction :=
  h.natives.getD i ⟨"", 0, fun _ _ => .ok .null⟩

/-! ## Allocating -/

/-- Adds a scope, at position `h.scopes.size`. -/
def addScope (h : Heap) (s : Scope) : Heap := { h with scopes := h.scopes.push s }

/-- Adds an array, at position `h.arrays.size`. -/
def addArray (h : Heap) (items : List Value) : Heap := { h with arrays := h.arrays.push items }

/-- Adds a function, at position `h.functions.size`. -/
def addFunction (h : Heap) (f : Function) : Heap := { h with functions := h.functions.push f }

/-- Adds a class, at position `h.classes.size`. -/
def addClass (h : Heap) (c : Class) : Heap := { h with classes := h.classes.push c }

/-- Adds an object, at position `h.objects.size`. -/
def addObject (h : Heap) (o : Object) : Heap := { h with objects := h.objects.push o }

/-- Adds a native function, at position `h.natives.size`. -/
def addNative (h : Heap) (f : NativeFunction) : Heap := { h with natives := h.natives.push f }

/-! ## Writing -/

/-- Binds a name in a scope. -/
def define (h : Heap) (i : ScopeId) (name : String) (value : Value) : Heap :=
  { h with scopes := h.scopes.modify i fun s => { s with names := s.names.insert name value } }

/-- Sets a field of an object. -/
def setField (h : Heap) (i : ObjectId) (name : String) (value : Value) : Heap :=
  { h with objects := h.objects.modify i fun o => { o with fields := o.fields.insert name value } }

end Heap

end Scriptlet
