import Scriptlet.Heap.Basic

/-!
# Equality of values

Numbers are compared as floats, so NaN differs from itself.  Functions, classes and objects are equal only to
themselves.  Arrays are equal if they are the same array or equal element by element; as an array only holds
arrays allocated before it, the number of arrays bounds the nesting of the comparison.
-/

set_option autoImplicit false

namespace Scriptlet

namespace Heap

/-- Whether two lists are of one length and related element by element. -/
def pairwise (test : Value → Value → Bool) : List Value → List Value → Bool
  | [], [] => true
  | a :: as, b :: bs => test a b && pairwise test as bs
  | _, _ => false

/-- Equality of values nested at most `depth` deep. -/
def equalWithin (h : Heap) : Nat → Value → Value → Bool
  | _, .null, .null => true
  | _, .bool a, .bool b => a == b
  | _, .number a, .number b => a == b
  | _, .string a, .string b => a == b
  | 0, .array a, .array b => a == b
  | depth + 1, .array a, .array b => a == b || pairwise (h.equalWithin depth) (h.array a) (h.array b)
  | _, .function a, .function b => a == b
  | _, .native a, .native b => a == b
  | _, .classRef a, .classRef b => a == b
  | _, .object a, .object b => a == b
  | _, _, _ => false

/-- Equality of values. -/
def equal (h : Heap) (a b : Value) : Bool := h.equalWithin h.arrays.size a b

end Heap

end Scriptlet
