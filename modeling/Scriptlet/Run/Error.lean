import Scriptlet.Heap.Scopes

/-!
# Errors of a running script

A `RunError` is either a `ScriptFault` at a line or a failure of the sink that takes the output.
`Halt` adds the two ways in which a run ends without an error of its own: a broken promise about scopes, and the
end of the steps it was given.
-/

set_option autoImplicit false

namespace Scriptlet

/-- What a script does wrong when it runs. -/
inductive ScriptFault where
  | undefinedVariable (name : String)
  | undefinedProperty (name : String)
  | operandNotNumber
  | operandsNotBooleans (op : String)
  | operandsNotNumbers (op : String) (left right : ValueType)
  | operandsNotAddable (op : String) (left right : ValueType)
  | invalidUnary (op : String)
  | invalidBinary (op : String)
  | divisionByZero
  | moduloByZero
  | indexNotNumber
  | indexNotInteger (position : Float)
  | indexOutOfRange (position : Float) (length : Nat)
  | notAnArray (type : ValueType)
  | notCallable
  | wrongArity (expected actual : Nat)
  | noProperties
  | noFields
  | native (text : String)
  deriving DecidableEq, Repr

/-- The wording of a script fault. -/
def ScriptFault.message : ScriptFault → String
  | undefinedVariable name => "Undefined variable '" ++ name ++ "'."
  | undefinedProperty name => "Undefined property '" ++ name ++ "'."
  | operandNotNumber => "Operand must be a number."
  | operandsNotBooleans op => "Operands of '" ++ op ++ "' must be booleans."
  | operandsNotNumbers op left right =>
      "Operands of '" ++ op ++ "' must be numbers, got " ++ left.name ++ " and " ++ right.name ++ "."
  | operandsNotAddable op left right =>
      "Operands of '" ++ op ++ "' must be two numbers or include a string, got " ++ left.name ++
        " and " ++ right.name ++ "."
  | invalidUnary op => "Invalid unary operator '" ++ op ++ "'."
  | invalidBinary op => "Invalid binary operator '" ++ op ++ "'."
  | divisionByZero => "Division by zero."
  | moduloByZero => "Modulo by zero."
  | indexNotNumber => "Array index must be a number."
  | indexNotInteger position =>
      "Array index must be an integer, got " ++ Number.valueStyle.text position ++ "."
  | indexOutOfRange position length =>
      "Array index " ++ Number.valueStyle.text position ++ " out of range for length " ++ length.repr ++ "."
  | notAnArray type => "Only arrays can be indexed, got " ++ type.name ++ "."
  | notCallable => "Can only call functions and classes."
  | wrongArity expected actual =>
      "Expected " ++ expected.repr ++ " arguments but got " ++ actual.repr ++ "."
  | noProperties => "Only instances have properties."
  | noFields => "Only instances have fields."
  | native text => text

/-- How a sink can fail. -/
inductive SinkError where
  | full
  | flushFailed
  deriving DecidableEq, Repr

/-- The wording of a sink's failure. -/
def SinkError.message : SinkError → String
  | full => "sink full"
  | flushFailed => "flush failed"

/-- An error that ends a run. -/
inductive RunError where
  | script (line : Nat) (fault : ScriptFault)
  | sink (e : SinkError)
  deriving DecidableEq, Repr

/-- Why a run ends early. -/
inductive Halt where
  | error (e : RunError)
  | fault (f : Fault)
  | exhausted
  deriving DecidableEq, Repr

end Scriptlet
