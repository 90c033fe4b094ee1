import Scriptlet.Run.Error

/-!
# Sinks

A `Sink` takes the output of a script.  It may have room for a limited number of bytes, of which it keeps
those that fit, and it may be unable to flush.
-/

set_option autoImplicit false

namespace Scriptlet

/-- Where output goes. -/
structure Sink where
  /-- The bytes taken so far. -/
  written : ByteArray
  /-- The number of bytes there is room for, `none` for any number. -/
  limit : Option Nat
  flushFails : Bool
  /-- The number of flushes, failed ones included. -/
  flushes : Nat

namespace Sink

/-- A sink that takes everything. -/
def unlimited : Sink := ⟨.empty, none, false, 0⟩

/-- Whether there is room for so many more bytes. -/
def hasRoom (s : Sink) (count : Nat) : Bool :=
  match s.limit with
  | none => true
  | some limit => s.written.size + count ≤ limit

/-- The bytes that fit out of those given. -/
def fitting (s : Sink) (bytes : ByteArray) : ByteArray :=
  match s.limit with
  | none => bytes
  | some limit => bytes.extract 0 (limit - s.written.size)

/-- The sink after taking what fits. -/
def take (s : Sink) (bytes : ByteArray) : Sink :=
  let fitting := s.fitting bytes
  { s with written := s.written ++ fitting }

/-- The bytes taken after the first `start` ones. -/
def since (s : Sink) (start : Nat) : ByteArray := s.written.extract start s.written.size

/-- The sink after a flush. -/
def flush (s : Sink) : Sink := { s with flushes := s.flushes + 1 }

end Sink

end Scriptlet
