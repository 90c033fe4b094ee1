import Scriptlet.Number.Text

/-!
# Tokens

A `Token` is a kind, the source text it was made from and the line that text ends on.  String and
number tokens carry their value in the kind.  `Token.display` is a token's line in a listing and
`Token.location` names a token in a diagnostic.
-/

set_option autoImplicit false

namespace Scriptlet

/-- The kinds of token.  Keywords carry the mark `kw`; `&` and `|` are spellings of `and` and
`or`. -/
inductive TokenKind where
  | leftParen | rightParen | leftBrace | rightBrace | leftBracket | rightBracket
  | comma | dot | minus | plus | semicolon | slash | star | percent | question | colon
  | bang | bangEqual | equal | equalEqual | greater | greaterEqual | less | lessEqual
  | plusPlus | minusMinus | plusEqual | minusEqual | starEqual | slashEqual | percentEqual
  | identifier
  | string (text : String)
  | number (value : Float)
  | kwAnd | kwClass | kwElse | kwFalse | kwFunction | kwFor | kwIf | kwNull | kwOr | kwPrint
  | kwReturn | kwSuper | kwThis | kwTrue | kwVar | kwWhile
  | eof
  deriving DecidableEq, Repr

/-- The name of a kind in token listings. -/
def TokenKind.name : TokenKind → String
  | leftParen => "LEFT_PAREN"
  | rightParen => "RIGHT_PAREN"
  | leftBrace => "LEFT_BRACE"
  | rightBrace => "RIGHT_BRACE"
  | leftBracket => "LEFT_BRACKET"
  | rightBracket => "RIGHT_BRACKET"
  | comma => "COMMA"
  | dot => "DOT"
  | minus => "MINUS"
  | plus => "PLUS"
  | semicolon => "SEMICOLON"
  | slash => "SLASH"
  | star => "STAR"
  | percent => "PERCENT"
  | question => "QUESTION"
  | colon => "COLON"
  | bang => "BANG"
  | bangEqual => "BANG_EQUAL"
  | equal => "EQUAL"
  | equalEqual => "EQUAL_EQUAL"
  | greater => "GREATER"
  | greaterEqual => "GREATER_EQUAL"
  | less => "LESS"
  | lessEqual => "LESS_EQUAL"
  | plusPlus => "PLUS_PLUS"
  | minusMinus => "MINUS_MINUS"
  | plusEqual => "PLUS_EQUAL"
  | minusEqual => "MINUS_EQUAL"
  | starEqual => "STAR_EQUAL"
  | slashEqual => "SLASH_EQUAL"
  | percentEqual => "PERCENT_EQUAL"
  | identifier => "IDENTIFIER"
  | string _ => "STRING"
  | number _ => "NUMBER"
  | kwAnd => "AND"
  | kwClass => "CLASS"
  | kwElse => "ELSE"
  | kwFalse => "FALSE"
  | kwFunction => "FUNCTION"
  | kwFor => "FOR"
  | kwIf => "IF"
  | kwNull => "NULL"
  | kwOr => "OR"
  | kwPrint => "PRINT"
  | kwReturn => "RETURN"
  | kwSuper => "SUPER"
  | kwThis => "THIS"
  | kwTrue => "TRUE"
  | kwVar => "VAR"
  | kwWhile => "WHILE"
  | eof => "EOF"

/-- A token of a source text. -/
structure Token where
  kind : TokenKind
  /-- The source text of the token. -/
  lexeme : String
  /-- The line on which the lexeme ends. -/
  line : Nat
  deriving DecidableEq, Repr

/-- The token that stands for the end of a source. -/
def Token.endOfSource (line : Nat) : Token := ⟨.eof, "", line⟩

/-- Where in a source a diagnostic points. -/
inductive Location where
  | atEnd
  | at (lexeme : String)
  deriving DecidableEq, Repr

/-- The location as it stands in a diagnostic. -/
def Location.text : Location → String
  | atEnd => " at end"
  | .at lexeme => " at '" ++ lexeme ++ "'"

/-- The location of a token. -/
def Token.location (t : Token) : Location :=
  match t.kind with
  | .eof => .atEnd
  | _ => .at t.lexeme

/-- The value part of a token's line in a listing. -/
def TokenKind.valueText : TokenKind → String
  | string text => text
  | number value => Number.tokenStyle.text value
  | _ => "null"

/-- A token's line in a listing: kind, lexeme and value. -/
def Token.display (t : Token) : String :=
  t.kind.name ++ " " ++ t.lexeme ++ " " ++ t.kind.valueText

end Scriptlet
