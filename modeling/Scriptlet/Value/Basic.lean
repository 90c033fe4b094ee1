import Scriptlet.Tree.Basic

/-!
# Values

A script computes with `Value`s.  Arrays, functions, classes and objects live in the heap; a value refers to
them by the position at which they were allocated, which is also their identity.
-/

set_option autoImplicit false

namespace Scriptlet

/-- The position of a scope in the heap. -/
abbrev ScopeId := Nat
/-- The position of an array in the heap. -/
abbrev ArrayId := Nat
/-- The position of a function in the heap. -/
abbrev FunctionId := Nat
/-- The position of a class in the heap. -/
abbrev ClassId := Nat
/-- The position of an object in the heap. -/
abbrev ObjectId := Nat
/-- The position of a native function in the heap. -/
abbrev NativeId := Nat

/-- The values of the language. -/
inductive Value where
  | null
  | bool (b : Bool)
  | number (x : Float)
  | string (s : String)
  | array (id : ArrayId)
  | function (id : FunctionId)
  | native (id : NativeId)
  | classRef (id : ClassId)
  | object (id : ObjectId)
  deriving DecidableEq, Repr

/-- The types of values that scripts can tell apart. -/
inductive ValueType where
  | number | string | boolean | null | array | function | object
  deriving DecidableEq, Repr

/-- The name of a type. -/
def ValueType.name : ValueType → String
  | number => "number"
  | string => "string"
  | boolean => "boolean"
  | null => "null"
  | array => "array"
  | function => "function"
  | object => "instance"

namespace Value

/-- The type of a value; whatever can be called is a function. -/
def type : Value → ValueType
  | null => .null
  | bool _ => .boolean
  | number _ => .number
  | string _ => .string
  | array _ => .array
  | function _ => .function
  | native _ => .function
  | classRef _ => .function
  | object _ => .object

/-- Whether a value counts as true: all do but `false`. -/
def isTruthy : Value → Bool
  | bool b => b
  | _ => true

/-- The value of a literal. -/
def ofLiteral : Literal → Value
  | .null => null
  | .bool b => bool b
  | .number x => number x
  | .string s => string s

end Value

end Scriptlet
