import Scriptlet.Tree.Mistake
import Scriptlet.Tree.Basic

/-!
# Reading tokens

The state of the parser and its steps on single tokens.  A `Parse` action consumes tokens from the front of the
list, hands out node ids and records errors.  It stops early with a `ParseHalt`: at a mistake it cannot read
past, or when the depth it was allowed is used up.

`synchronize` is where reading resumes after a mistake: past the next semicolon or in front of a token that
starts a statement, but at least one token further on.
-/

set_option autoImplicit false

namespace Scriptlet

/-- The state of the parser. -/
structure ParseState where
  /-- The tokens not yet consumed; the end token is never consumed. -/
  rest : List Token
  /-- The id of the next node that refers to a name. -/
  nextId : NodeId
  /-- The errors so far, in the order of their report. -/
  errors : List ParseError
  deriving DecidableEq, Repr

/-- Why reading stopped early. -/
inductive ParseHalt where
  | mistake (e : ParseError)
  | exhausted
  deriving DecidableEq, Repr

/-- An action of the parser. -/
abbrev Parse := EStateM ParseHalt ParseState

namespace ParseState

/-- The next token. -/
def peek (st : ParseState) : Token :=
  match st.rest with
  | t :: _ => t
  | [] => Token.endOfSource 0

/-- Whether only the end token is left. -/
def atEnd (st : ParseState) : Bool := st.peek.kind = .eof

/-- The state after one more error. -/
def record (st : ParseState) (e : ParseError) : ParseState := { st with errors := st.errors ++ [e] }

/-- Consumes a token, unless only the end token is left. -/
def advance (st : ParseState) : ParseState := if st.atEnd then st else { st with rest := st.rest.tail }

end ParseState

namespace Parse

/-- The next token. -/
def peek : Parse Token := fun st => .ok st.peek st

/-- Whether the next token satisfies a test; the end token satisfies none. -/
def sees (test : TokenKind → Bool) : Parse Bool := fun st =>
  .ok (!st.atEnd && test st.peek.kind) st

/-- Whether only the end token is left. -/
def atEnd : Parse Bool := fun st => .ok st.atEnd st

/-- Whether the statements of a block or the methods of a class end here. -/
def atBraceOrEnd : Parse Bool := fun st => .ok (st.atEnd || st.peek.kind = .rightBrace) st

/-- Consumes the next token if it satisfies a test. -/
def accept? (test : TokenKind → Bool) : Parse (Option Token) := fun st =>
  if !st.atEnd && test st.peek.kind then .ok (some st.peek) st.advance else .ok none st

/-- Consumes the next token. -/
def skip : Parse Unit := fun st => .ok () st.advance

/-- Stops at the next token. -/
def fail {α : Type} (mistake : Mistake) : Parse α := fun st =>
  .error (.mistake (.at st.peek mistake)) st

/-- Stops because the allowed depth is used up. -/
def exhausted {α : Type} : Parse α := fun st => .error .exhausted st

/-- Consumes a token of the given kind, or stops. -/
def expect (kind : TokenKind) (mistake : Mistake) : Parse Token := do
  match ← accept? (· = kind) with
  | some t => return t
  | none => fail mistake

/-- Records an error and reads on. -/
def report (t : Token) (mistake : Mistake) : Parse Unit := fun st =>
  .ok () (st.record (.at t mistake))

/-- A node id not handed out before. -/
def freshId : Parse NodeId := fun st => .ok st.nextId { st with nextId := st.nextId + 1 }

end Parse

/-! ## Resuming after a mistake -/

/-- The keywords in front of which reading resumes. -/
def startsStatement : TokenKind → Bool
  | .kwClass | .kwFunction | .kwVar | .kwFor | .kwIf | .kwWhile | .kwPrint | .kwReturn => true
  | _ => false

/-- The tokens from which reading resumes, when `previous` has just been consumed. -/
def resumeAfter (previous : Token) : List Token → List Token
  | [] => []
  | t :: rest =>
      if t.kind = .eof ∨ previous.kind = .semicolon ∨ startsStatement t.kind then t :: rest
      else resumeAfter t rest

/-- The tokens from which reading resumes after a mistake. -/
def synchronize : List Token → List Token
  | [] => []
  | t :: rest => if t.kind = .eof then t :: rest else resumeAfter t rest

/-- Records the error of a failed declaration and skips to where reading resumes. -/
def ParseState.recover (st : ParseState) (e : ParseError) : ParseState :=
  { st.record e with rest := synchronize st.rest }

end Scriptlet
