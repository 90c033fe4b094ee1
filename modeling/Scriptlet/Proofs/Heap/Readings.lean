import Scriptlet.Run.Evaluate

/-!
# What is read from a heap

Apart from names and the bodies of functions, a script reads from the heap the elements of arrays, the fields of
objects, and the names and numbers of parameters of what can be called.

* `Heap.LooksLike h h'` — all this is the same in two heaps.

Principal results: `LooksLike.text`, `LooksLike.applyBinary`, `LooksLike.applyIndex`, `LooksLike.arity?` — values have
the same text in heaps that look alike, the same results under operators, and take the same number of arguments.
-/

set_option autoImplicit false

namespace Scriptlet

/-- Two heaps have the same arrays, objects and native functions, and functions and classes with the same names and
numbers of parameters. -/
structure Heap.LooksLike (h h' : Heap) : Prop where
  arrays : h'.arrays = h.arrays
  objects : h'.objects = h.objects
  natives : h'.natives = h.natives
  functionName : ∀ i, (h'.function i).name = (h.function i).name
  functionArity : ∀ i, (h'.function i).arity = (h.function i).arity
  className : ∀ i, (h'.cls i).name = (h.cls i).name
  classArity : ∀ i, (h'.cls i).arity = (h.cls i).arity

namespace Heap.LooksLike

variable {h h' : Heap}

theorem array (hh : h.LooksLike h') (i : ArrayId) : h'.array i = h.array i := by
  unfold Heap.array
  rw [hh.arrays]

theorem object (hh : h.LooksLike h') (i : ObjectId) : h'.object i = h.object i := by
  unfold Heap.object
  rw [hh.objects]

theorem native (hh : h.LooksLike h') (i : NativeId) : h'.native i = h.native i := by
  unfold Heap.native
  rw [hh.natives]

theorem arity? (hh : h.LooksLike h') (v : Value) : h'.arity? v = h.arity? v := by
  cases v with
  | function id => exact congrArg some (hh.functionArity id)
  | classRef id => exact congrArg some (hh.classArity id)
  | native id => exact congrArg (fun f : NativeFunction => some f.arity) (hh.native id)
  | null | bool | number | string | array | object => rfl

theorem textWithin (hh : h.LooksLike h') (depth : Nat) (v : Value) :
    h'.textWithin depth v = h.textWithin depth v := by
  induction depth generalizing v with
  | zero => cases v <;> simp [Heap.textWithin, hh.functionName, hh.className, hh.object]
  | succ depth ih =>
      have htext : h'.textWithin depth = h.textWithin depth := funext ih
      cases v <;> simp [Heap.textWithin, htext, hh.array, hh.functionName, hh.className, hh.object]

theorem text (hh : h.LooksLike h') (v : Value) : h'.text v = h.text v := by
  unfold Heap.text
  rw [hh.arrays, hh.textWithin]

theorem equalWithin (hh : h.LooksLike h') (depth : Nat) (a b : Value) :
    h'.equalWithin depth a b = h.equalWithin depth a b := by
  induction depth generalizing a b with
  | zero => cases a <;> cases b <;> simp [Heap.equalWithin]
  | succ depth ih =>
      have htest : h'.equalWithin depth = h.equalWithin depth := funext fun a => funext (ih a)
      cases a <;> cases b <;> simp [Heap.equalWithin, htest, hh.array]

theorem applyBinary (hh : h.LooksLike h') (kind : TokenKind) (lexeme : String) (left right : Value) :
    applyBinary h' kind lexeme left right = applyBinary h kind lexeme left right := by
  have hequal : h'.equal left right = h.equal left right := by
    unfold Heap.equal
    rw [hh.arrays, hh.equalWithin]
  have hplus : applyPlus h' lexeme left right = applyPlus h lexeme left right := by
    unfold applyPlus
    simp only [hh.text]
  unfold Scriptlet.applyBinary
  rw [hequal, hplus]

theorem applyIndex (hh : h.LooksLike h') (target position : Value) :
    applyIndex h' target position = applyIndex h target position := by
  unfold Scriptlet.applyIndex
  simp only [hh.array]

end Heap.LooksLike

end Scriptlet
