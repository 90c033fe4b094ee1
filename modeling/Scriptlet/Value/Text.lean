import Scriptlet.Heap.Basic

/-!
# The printed form of values

An array only holds arrays allocated before it, so the number of arrays bounds the nesting of a value; it is the
depth given to `Heap.textWithin`.
-/

set_option autoImplicit false

namespace Scriptlet

namespace Heap

/-- The printed form of a value nested at most `depth` deep. -/
def textWithin (h : Heap) : Nat → Value → String
  | _, .null => "null"
  | _, .bool b => if b then "true" else "false"
  | _, .number x => Number.valueStyle.text x
  | _, .string s => s
  | 0, .array _ => "[]"
  | depth + 1, .array i => "[" ++ ", ".intercalate ((h.array i).map (h.textWithin depth)) ++ "]"
  | _, .function i => "<fn " ++ (h.function i).name ++ ">"
  | _, .native _ => "<native fn>"
  | _, .classRef i => (h.cls i).name
  | _, .object i => (h.cls (h.object i).cls).name ++ " instance"

/-- The printed form of a value. -/
def text (h : Heap) (v : Value) : String := h.textWithin h.arrays.size v

end Heap

end Scriptlet
