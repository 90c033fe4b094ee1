import Scriptlet.Token.Basic

/-!
# Token listings in JSON

A listing is an array with an object for each token, indented by two blanks a level.  The kind of a token is its
name; string and number tokens have an object instead, with their value under the name.
-/

set_option autoImplicit false

namespace Scriptlet.Json

/-- A hexadecimal digit. -/
def hexDigit (n : Nat) : Char := if n < 10 then Char.ofNat (48 + n) else Char.ofNat (87 + n)

/-- A character of a string: quotes, backslashes and control characters are escaped. -/
def escape (c : Char) : List Char :=
  if c = '"' then ['\\', '"']
  else if c = '\\' then ['\\', '\\']
  else if c = '\x08' then ['\\', 'b']
  else if c = '\t' then ['\\', 't']
  else if c = '\n' then ['\\', 'n']
  else if c = '\x0c' then ['\\', 'f']
  else if c = '\r' then ['\\', 'r']
  else if c.toNat < 0x20 then
    ['\\', 'u', '0', '0', hexDigit (c.toNat / 16), hexDigit (c.toNat % 16)]
  else [c]

/-- A string. -/
def string (s : String) : String := String.ofList ('"' :: s.toList.flatMap escape ++ ['"'])

/-- So many levels of indentation. -/
def indent (level : Nat) : String := String.ofList (List.replicate (2 * level) ' ')

/-- An object, one field a line; the texts of the values are given. -/
def object (level : Nat) (fields : List (String × String)) : String :=
  let lines := fields.map fun (key, value) => indent (level + 1) ++ string key ++ ": " ++ value
  "\x7b\n" ++ ",\n".intercalate lines ++ "\n" ++ indent level ++ "\x7d"

/-- An array, one element a line; the texts of the elements are given. -/
def array (level : Nat) (elements : List String) : String :=
  if elements.isEmpty then "[]"
  else
    let lines := elements.map fun element => indent (level + 1) ++ element
    "[\n" ++ ",\n".intercalate lines ++ "\n" ++ indent level ++ "]"

/-- The kind of a token. -/
def tokenKind (level : Nat) (kind : TokenKind) : String :=
  match kind with
  | .string text => object level [(kind.name, string text)]
  | .number value => object level [(kind.name, (Number.jsonText? value).getD "null")]
  | _ => string kind.name

/-- A token. -/
def token (level : Nat) (t : Token) : String :=
  object level
    [("token_type", tokenKind (level + 1) t.kind), ("lexeme", string t.lexeme), ("line", t.line.repr)]

/-- A listing of tokens. -/
def tokenListing (tokens : List Token) : String := array 0 (tokens.map (token 1))

end Scriptlet.Json
