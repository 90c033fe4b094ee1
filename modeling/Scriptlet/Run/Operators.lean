import Scriptlet.Run.Error
import Scriptlet.Value.Text
import Scriptlet.Value.Equality

/-!
# Operators

The meaning of the operators on values.  Which rule applies is decided by the kind of the operator's token, apart
from its spelling, which only error messages show: a compound assignment applies the rule of its arithmetic
operator under its own spelling.
-/

set_option autoImplicit false

namespace Scriptlet

/-- A unary operator. -/
def applyUnary (op : Token) (operand : Value) : Except ScriptFault Value :=
  match op.kind with
  | .minus =>
      match operand with
      | .number x => .ok (.number (-x))
      | _ => .error .operandNotNumber
  | .bang => .ok (.bool (!operand.isTruthy))
  | _ => .error (.invalidUnary op.lexeme)

/-- The sum of two numbers, or the joined texts of two values of which one is a string. -/
def applyPlus (h : Heap) (lexeme : String) : Value → Value → Except ScriptFault Value
  | .number a, .number b => .ok (.number (a + b))
  | .string a, right => .ok (.string (a ++ h.text right))
  | left, .string b => .ok (.string (h.text left ++ b))
  | left, right => .error (.operandsNotAddable lexeme left.type right.type)

/-- An operator on two numbers. -/
def applyNumeric (kind : TokenKind) (lexeme : String) (a b : Float) : Except ScriptFault Value :=
  match kind with
  | .minus => .ok (.number (a - b))
  | .star => .ok (.number (a * b))
  | .slash => if b == 0 then .error .divisionByZero else .ok (.number (a / b))
  | .percent => if b == 0 then .error .moduloByZero else .ok (.number (Number.remainder a b))
  | .greater => .ok (.bool (b < a))
  | .greaterEqual => .ok (.bool (b ≤ a))
  | .less => .ok (.bool (a < b))
  | .lessEqual => .ok (.bool (a ≤ b))
  | _ => .error (.invalidBinary lexeme)

/-- A binary operator of the given kind, spelled `lexeme`. -/
def applyBinary (h : Heap) (kind : TokenKind) (lexeme : String) (left right : Value) :
    Except ScriptFault Value :=
  match kind with
  | .plus => applyPlus h lexeme left right
  | .equalEqual => .ok (.bool (h.equal left right))
  | .bangEqual => .ok (.bool (!h.equal left right))
  | _ =>
      match left, right with
      | .number a, .number b => applyNumeric kind lexeme a b
      | _, _ => .error (.operandsNotNumbers lexeme left.type right.type)

/-- A logical operator; both operands are booleans. -/
def applyLogical (op : Token) (left right : Value) : Except ScriptFault Value :=
  match left, right, op.kind with
  | .bool a, .bool b, .kwAnd => .ok (.bool (a && b))
  | .bool a, .bool b, .kwOr => .ok (.bool (a || b))
  | _, _, _ => .error (.operandsNotBooleans op.lexeme)

/-- The arithmetic operator of a compound assignment, increment or decrement. -/
def updateKind : TokenKind → TokenKind
  | .plusEqual | .plusPlus => .plus
  | .minusEqual | .minusMinus => .minus
  | .starEqual => .star
  | .slashEqual => .slash
  | _ => .percent

/-- The element of an array at a position.  A position past the end is out of range even where it is not
whole. -/
def elementAt (items : List Value) (position : Float) : Except ScriptFault Value :=
  if Number.ofNat items.length ≤ position then .error (.indexOutOfRange position items.length)
  else if !Number.isIntegral position then .error (.indexNotInteger position)
  else if position < 0 then .error (.indexOutOfRange position items.length)
  else match items[Number.truncated position]? with
    | some value => .ok value
    | none => .error (.indexOutOfRange position items.length)

/-- Element access. -/
def applyIndex (h : Heap) (target position : Value) : Except ScriptFault Value :=
  match position with
  | .number x =>
      match target with
      | .array i => elementAt (h.array i) x
      | other => .error (.notAnArray other.type)
  | _ => .error .indexNotNumber

end Scriptlet
