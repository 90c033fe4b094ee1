import Scriptlet.Token.Basic

/-!
# Segments of a source text

A source text is cut from left to right into `Segment`s: token lexemes, blanks, comments, characters
that belong to no token, and at most one string that is never closed.  `cut` takes the first segment
off a text and `segments` cuts the whole text; `length_cut_snd_le` is why that ends.

Lexical rules.  Names are ASCII letters, digits and underscores, not starting with a digit.  Numbers
are digits, with a fraction only where a digit follows the point.  Strings run to the next quote and have no
escapes.  Of two operators that both match, the longer one is taken.
-/

set_option autoImplicit false

namespace Scriptlet

/-- A piece of source text. -/
inductive Segment where
  | token (kind : TokenKind) (lexeme : List Char)
  | blank (c : Char)
  /-- A line comment, without the newline that ends it. -/
  | comment (text : List Char)
  /-- A character that starts no token. -/
  | stray (c : Char)
  /-- An opening quote and the rest of the source, in which no quote follows. -/
  | openString (body : List Char)
  deriving DecidableEq, Repr

/-- The source text of a segment. -/
def Segment.text : Segment → List Char
  | token _ lexeme => lexeme
  | blank c => [c]
  | comment text => text
  | stray c => [c]
  | openString body => '"' :: body

/-! ## Lexical classes -/

/-- A character that may start a name. -/
def isNameStart (c : Char) : Bool := c.isAlpha || c == '_'

/-- A character that may continue a name. -/
def isNamePart (c : Char) : Bool := c.isAlphanum || c == '_'

/-- The blanks between tokens. -/
def isBlank (c : Char) : Bool := c == ' ' || c == '\r' || c == '\t' || c == '\n'

/-- The kind of a name: a keyword, or an identifier. -/
def nameKind (name : String) : TokenKind :=
  match name with
  | "and" => .kwAnd
  | "class" => .kwClass
  | "else" => .kwElse
  | "false" => .kwFalse
  | "for" => .kwFor
  | "function" => .kwFunction
  | "if" => .kwIf
  | "null" => .kwNull
  | "or" => .kwOr
  | "print" => .kwPrint
  | "return" => .kwReturn
  | "super" => .kwSuper
  | "this" => .kwThis
  | "true" => .kwTrue
  | "var" => .kwVar
  | "while" => .kwWhile
  | _ => .identifier

/-- Operators of two characters. -/
def pairKind? : Char → Char → Option TokenKind
  | '-', '=' => some .minusEqual
  | '-', '-' => some .minusMinus
  | '+', '=' => some .plusEqual
  | '+', '+' => some .plusPlus
  | '*', '=' => some .starEqual
  | '%', '=' => some .percentEqual
  | '/', '=' => some .slashEqual
  | '&', '&' => some .kwAnd
  | '|', '|' => some .kwOr
  | '!', '=' => some .bangEqual
  | '=', '=' => some .equalEqual
  | '<', '=' => some .lessEqual
  | '>', '=' => some .greaterEqual
  | _, _ => none

/-- Operators and punctuation of one character. -/
def singleKind? : Char → Option TokenKind
  | '(' => some .leftParen
  | ')' => some .rightParen
  | '\x7b' => some .leftBrace
  | '\x7d' => some .rightBrace
  | '[' => some .leftBracket
  | ']' => some .rightBracket
  | ',' => some .comma
  | '.' => some .dot
  | ';' => some .semicolon
  | '?' => some .question
  | ':' => some .colon
  | '-' => some .minus
  | '+' => some .plus
  | '*' => some .star
  | '%' => some .percent
  | '/' => some .slash
  | '&' => some .kwAnd
  | '|' => some .kwOr
  | '!' => some .bang
  | '=' => some .equal
  | '<' => some .less
  | '>' => some .greater
  | _ => none

/-! ## Cutting -/

/-- A name that starts with `c`. -/
def cutName (c : Char) (rest : List Char) : Segment × List Char :=
  let name := c :: rest.takeWhile isNamePart
  (.token (nameKind (String.ofList name)) name, rest.dropWhile isNamePart)

/-- The fraction of a number: a point and at least one digit, or nothing. -/
def cutFraction : List Char → List Char × List Char
  | '.' :: d :: rest =>
      if d.isDigit then (d :: rest.takeWhile Char.isDigit, rest.dropWhile Char.isDigit)
      else ([], '.' :: d :: rest)
  | rest => ([], rest)

/-- The text of a number with the given digits before and after its point. -/
def numberText (whole fraction : List Char) : List Char :=
  if fraction.isEmpty then whole else whole ++ '.' :: fraction

/-- A number that starts with the digit `c`. -/
def cutNumber (c : Char) (rest : List Char) : Segment × List Char :=
  let whole := c :: rest.takeWhile Char.isDigit
  let (fraction, after) := cutFraction (rest.dropWhile Char.isDigit)
  (.token (.number (Number.Decimal.ofDigits whole fraction).toFloat) (numberText whole fraction), after)

/-- A string, after its opening quote. -/
def cutString (rest : List Char) : Segment × List Char :=
  let body := rest.takeWhile (· != '"')
  match rest.dropWhile (· != '"') with
  | [] => (.openString body, [])
  | quote :: after => (.token (.string (String.ofList body)) ('"' :: body ++ [quote]), after)

/-- A comment, after its two slashes. -/
def cutComment (rest : List Char) : Segment × List Char :=
  (.comment ('/' :: '/' :: rest.takeWhile (· != '\n')), rest.dropWhile (· != '\n'))

/-- An operator, or a character that starts no token. -/
def cutSymbol (c : Char) (rest : List Char) : Segment × List Char :=
  match rest with
  | d :: after =>
      match pairKind? c d with
      | some kind => (.token kind [c, d], after)
      | none => match singleKind? c with
        | some kind => (.token kind [c], rest)
        | none => (.stray c, rest)
  | [] => match singleKind? c with
      | some kind => (.token kind [c], [])
      | none => (.stray c, [])

/-- The first segment of the text `c :: rest`, and what follows it. -/
def cut (c : Char) (rest : List Char) : Segment × List Char :=
  if isBlank c then (.blank c, rest)
  else if isNameStart c then cutName c rest
  else if c.isDigit then cutNumber c rest
  else if c == '"' then cutString rest
  else match c, rest with
    | '/', '/' :: after => cutComment after
    | _, _ => cutSymbol c rest

private theorem length_dropWhile_le_self {α : Type} (p : α → Bool) (l : List α) :
    (l.dropWhile p).length ≤ l.length :=
  (List.dropWhile_suffix p).length_le

private theorem length_cutFraction_snd_le (cs : List Char) :
    (cutFraction cs).2.length ≤ cs.length := by
  unfold cutFraction
  split
  · split
    · have := length_dropWhile_le_self Char.isDigit ‹List Char›
      simp only [List.length_cons]
      omega
    · exact Nat.le_refl _
  · exact Nat.le_refl _

/-- A segment has at least one character. -/
theorem length_cut_snd_le (c : Char) (rest : List Char) :
    (cut c rest).2.length ≤ rest.length := by
  unfold cut
  split
  · exact Nat.le_refl _
  split
  · exact length_dropWhile_le_self _ _
  split
  · exact Nat.le_trans (length_cutFraction_snd_le _) (length_dropWhile_le_self _ _)
  split
  · unfold cutString
    have := length_dropWhile_le_self (· != '"') rest
    split
    · simp
    · rename_i h
      rw [h] at this
      simp only [List.length_cons] at this
      simp only
      omega
  split
  · simp only [cutComment, List.length_cons]
    exact Nat.le_succ_of_le (length_dropWhile_le_self _ _)
  · unfold cutSymbol
    split
    · split
      · simp
      · split <;> simp
    · split <;> simp

/-- A text cut into segments. -/
def segments : List Char → List Segment
  | [] => []
  | c :: rest => (cut c rest).1 :: segments (cut c rest).2
termination_by text => text.length
decreasing_by
  have := length_cut_snd_le c rest
  simp only [List.length_cons]
  omega

end Scriptlet
