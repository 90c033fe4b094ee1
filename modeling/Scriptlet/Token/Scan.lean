import Scriptlet.Token.Segment

/-!
# Scanning

`scan` turns a source text into the stream of its `ScanItem`s: a token for each lexeme, a lexical
error for each stray character and for an unclosed string, and one end token.  An item's line is the
line on which its segment ends, counted from 1.
-/

set_option autoImplicit false

namespace Scriptlet

/-- Why a piece of source text is no token. -/
inductive LexFault where
  | unterminatedString
  | unexpectedCharacter (c : Char)
  deriving DecidableEq, Repr

/-- The wording of a lexical fault. -/
def LexFault.message : LexFault → String
  | unterminatedString => "Unterminated string."
  | unexpectedCharacter c => "Unexpected character: " ++ String.singleton c

/-- A lexical error. -/
structure LexError where
  line : Nat
  fault : LexFault
  deriving DecidableEq, Repr

/-- An element of a scanned source. -/
inductive ScanItem where
  | token (t : Token)
  | error (e : LexError)
  deriving DecidableEq, Repr

/-- The number of newlines in a text. -/
def newlines (text : List Char) : Nat := text.count '\n'

/-- What a segment that ends on `line` contributes to the stream. -/
def Segment.item? (line : Nat) : Segment → Option ScanItem
  | token kind lexeme => some (.token ⟨kind, String.ofList lexeme, line⟩)
  | stray c => some (.error ⟨line, .unexpectedCharacter c⟩)
  | openString _ => some (.error ⟨line, .unterminatedString⟩)
  | blank _ => none
  | comment _ => none

/-- The stream of a list of segments whose first one starts on `line`. -/
def itemsFrom (line : Nat) : List Segment → List ScanItem
  | [] => [.token (Token.endOfSource line)]
  | s :: rest =>
      let after := line + newlines s.text
      match s.item? after with
      | some item => item :: itemsFrom after rest
      | none => itemsFrom after rest

/-- The stream of a source text. -/
def scan (source : String) : List ScanItem := itemsFrom 1 (segments source.toList)

/-- The token of an item, if it is one. -/
def ScanItem.token? : ScanItem → Option Token
  | token t => some t
  | error _ => none

/-- The lexical error of an item, if it is one. -/
def ScanItem.error? : ScanItem → Option LexError
  | token _ => none
  | error e => some e

/-- The tokens of a source text, the end token included. -/
def tokens (source : String) : List Token := (scan source).filterMap ScanItem.token?

/-- The lexical errors of a source text. -/
def lexErrors (source : String) : List LexError := (scan source).filterMap ScanItem.error?

end Scriptlet
