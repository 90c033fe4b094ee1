/-!
# Decoding UTF-8

`decode` reads bytes one at a time.  Between characters the next byte is a whole ASCII character or leads a
longer one; within a character the state says how many bytes are owed and in which range the next one lies.  A
byte out of range makes the bytes of the character read so far invalid; the end of the input within a
character leaves it incomplete.
-/

set_option autoImplicit false

namespace Scriptlet.Utf8

/-- Why bytes are no UTF-8 text. -/
inductive DecodeError where
  /-- So many bytes from an index on cannot be part of a text. -/
  | invalid (length index : Nat)
  /-- The character that starts at an index lacks its last bytes. -/
  | incomplete (index : Nat)
  deriving DecidableEq, Repr

/-- The wording of a decoding error. -/
def DecodeError.message : DecodeError → String
  | invalid length index =>
      "invalid utf-8 sequence of " ++ length.repr ++ " bytes from index " ++ index.repr
  | incomplete index => "incomplete utf-8 byte sequence from index " ++ index.repr

/-- A character of which some bytes have been read. -/
structure Pending where
  /-- The index of its first byte. -/
  start : Nat
  /-- The number of bytes read. -/
  taken : Nat
  /-- The number of bytes still owed. -/
  owed : Nat
  /-- The code read so far. -/
  code : Nat
  /-- The least value of the next byte. -/
  low : Nat
  /-- The greatest value of the next byte. -/
  high : Nat

/-- The character led by a byte at an index.  The range of its second byte excludes overlong forms,
surrogates and codes past the last one. -/
def lead? (index byte : Nat) : Option Pending :=
  if 0xC2 ≤ byte ∧ byte ≤ 0xDF then some ⟨index, 1, 1, byte - 0xC0, 0x80, 0xBF⟩
  else if byte = 0xE0 then some ⟨index, 1, 2, 0, 0xA0, 0xBF⟩
  else if byte = 0xED then some ⟨index, 1, 2, 0xD, 0x80, 0x9F⟩
  else if 0xE1 ≤ byte ∧ byte ≤ 0xEF then some ⟨index, 1, 2, byte - 0xE0, 0x80, 0xBF⟩
  else if byte = 0xF0 then some ⟨index, 1, 3, 0, 0x90, 0xBF⟩
  else if byte = 0xF4 then some ⟨index, 1, 3, 4, 0x80, 0x8F⟩
  else if 0xF1 ≤ byte ∧ byte ≤ 0xF3 then some ⟨index, 1, 3, byte - 0xF0, 0x80, 0xBF⟩
  else none

/-- The characters of bytes whose first one has the given index, after a pending character if there is
one. -/
def decodeFrom (index : Nat) (pending : Option Pending) : List UInt8 → Except DecodeError (List Char)
  | [] => match pending with
      | none => .ok []
      | some p => .error (.incomplete p.start)
  | b :: rest =>
      let byte := b.toNat
      match pending with
      | none =>
          if byte < 0x80 then (Char.ofNat byte :: ·) <$> decodeFrom (index + 1) none rest
          else match lead? index byte with
            | some p => decodeFrom (index + 1) (some p) rest
            | none => .error (.invalid 1 index)
      | some p =>
          if p.low ≤ byte ∧ byte ≤ p.high then
            let code := p.code * 64 + (byte - 0x80)
            if p.owed = 1 then (Char.ofNat code :: ·) <$> decodeFrom (index + 1) none rest
            else decodeFrom (index + 1) (some ⟨p.start, p.taken + 1, p.owed - 1, code, 0x80, 0xBF⟩) rest
          else .error (.invalid p.taken p.start)

/-- The text of bytes. -/
def decode (bytes : List UInt8) : Except DecodeError String := String.ofList <$> decodeFrom 0 none bytes

/-- The text of bytes of which the last character may be cut off.  A cut character stands as a replacement
character. -/
def decodeCut (bytes : ByteArray) : String :=
  match String.fromUTF8? bytes with
  | some text => text
  | none =>
      let whole := [1, 2, 3].findSome? fun k => String.fromUTF8? (bytes.extract 0 (bytes.size - k))
      whole.getD "" ++ "\uFFFD"

/-- Bytes cut after each newline. -/
def lines : List UInt8 → List (List UInt8)
  | [] => []
  | b :: rest =>
      if b = 0x0A then [b] :: lines rest
      else match lines rest with
        | [] => [[b]]
        | line :: more => (b :: line) :: more

end Scriptlet.Utf8
