import Std.Data.TreeMap
import Scriptlet.Tree.Basic

/-!
# Scope distances

A reference to a local name is filed under its node id as the number of scopes between the reference
and the scope that declares the name.  References without an entry are global.
-/

set_option autoImplicit false

namespace Scriptlet

/-- The scope distance of each local reference. -/
abbrev DistanceTable := Std.TreeMap NodeId Nat

namespace DistanceTable

/-- The table without entries. -/
def empty : DistanceTable := ∅

/-- The distance of a reference, `none` for a global one. -/
def distance? (table : DistanceTable) (id : NodeId) : Option Nat := table[id]?

/-- Files a distance; an earlier one is replaced. -/
def file (table : DistanceTable) (id : NodeId) (distance : Nat) : DistanceTable :=
  table.insert id distance

end DistanceTable

end Scriptlet
