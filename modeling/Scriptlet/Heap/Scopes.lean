import Scriptlet.Heap.Basic

/-!
# Access to names

There are two ways to a name.  A search goes outward from a scope to the nearest one that binds the name.
Direct access goes a known number of scopes outward; it relies on what was established about the program before it
ran, and a name or scope that is not there is a `Fault`, not an error of the script.

A search visits scopes allocated before the one it starts from, so their number bounds it.
-/

set_option autoImplicit false

namespace Scriptlet

/-- A broken promise about scopes. -/
inductive Fault where
  | missingName (name : String) (distance : Nat)
  | missingScope
  deriving DecidableEq, Repr

/-- The wording of a fault. -/
def Fault.message : Fault → String
  | missingName name distance =>
      "resolved name '" ++ name ++ "' missing at distance " ++ distance.repr
  | missingScope => "resolved scope distance exceeds environment depth"

namespace Heap

/-- The nearest scope that binds a name, within `bound` scopes outward from scope `i`. -/
def ownerWithin (h : Heap) (name : String) : Nat → ScopeId → Option ScopeId
  | 0, _ => none
  | bound + 1, i =>
      if (h.scope i).names.binds name then some i
      else match (h.scope i).enclosing with
        | some outer => h.ownerWithin name bound outer
        | none => none

/-- The nearest scope outward from scope `i` that binds a name. -/
def owner? (h : Heap) (i : ScopeId) (name : String) : Option ScopeId := h.ownerWithin name (i + 1) i

/-- Searches for the value of a name. -/
def search? (h : Heap) (i : ScopeId) (name : String) : Option Value :=
  (h.owner? i name).bind fun owner => (h.scope owner).names.get? name

/-- Searches for a name and gives it a value; nothing happens to a name that is not bound. -/
def searchAssign? (h : Heap) (i : ScopeId) (name : String) (value : Value) : Option Heap :=
  (h.owner? i name).map fun owner => h.define owner name value

/-- The scope at a distance outward. -/
def ancestor? (h : Heap) (i : ScopeId) : Nat → Option ScopeId
  | 0 => some i
  | distance + 1 =>
      match (h.scope i).enclosing with
      | some outer => h.ancestor? outer distance
      | none => none

/-- The value of a name in the scope at a distance. -/
def readAt (h : Heap) (i : ScopeId) (distance : Nat) (name : String) : Except Fault Value :=
  match h.ancestor? i distance with
  | none => .error .missingScope
  | some owner =>
      match (h.scope owner).names.get? name with
      | some value => .ok value
      | none => .error (.missingName name distance)

/-- Gives a name a value in the scope at a distance, whether or not it was bound there. -/
def assignAt (h : Heap) (i : ScopeId) (distance : Nat) (name : String) (value : Value) :
    Except Fault Heap :=
  match h.ancestor? i distance with
  | none => .error .missingScope
  | some owner => .ok (h.define owner name value)

end Heap

end Scriptlet
