/-!
# Binary64 numbers as exact fractions

Every finite binary64 magnitude is a whole multiple of `2 ^ -1074`, the least positive float.
Counting in that unit turns questions about floats into arithmetic on `Nat`:

* `units w` — the magnitude of the bit pattern `w`, counted in units of `2 ^ -1074`;
* `View`, `view` — a float read as a sign and a number of units, an infinity, or NaN;
* `nearestWord`, `nearest` — the float nearest to a ratio of natural numbers, a half going to
  the even neighbour and too large a ratio to infinity;
* `ofUnits` — the float of a number of units;
* `isIntegral`, `truncated` — the whole part of a float;
* `remainder` — the exact remainder of a truncated division.
-/

set_option autoImplicit false

namespace Scriptlet.Number

/-- The value `1`, counted in units of `2 ^ -1074`. -/
def one : Nat := Nat.pow 2 1074

/-- The bit pattern of positive infinity: all exponent bits set. -/
def infinityWord : Nat := 2047 * Nat.pow 2 52

/-- The biased exponent field of a bit pattern. -/
def exponentField (word : Nat) : Nat := word / Nat.pow 2 52 % Nat.pow 2 11

/-- The trailing fraction field of a bit pattern. -/
def fractionField (word : Nat) : Nat := word % Nat.pow 2 52

/-- The magnitude of a finite bit pattern in units of `2 ^ -1074`.  A zero exponent field has no
hidden bit; otherwise the hidden bit is `2 ^ 52` and each step of the field doubles the unit. -/
def units (word : Nat) : Nat :=
  if exponentField word = 0 then fractionField word
  else (Nat.pow 2 52 + fractionField word) * Nat.pow 2 (exponentField word - 1)

/-- What a float is, apart from the payload of a NaN. -/
inductive View where
  | finite (negative : Bool) (units : Nat)
  | infinite (negative : Bool)
  | nan
  deriving DecidableEq, Repr

/-- Reads a bit pattern. -/
def viewWord (word : Nat) : View :=
  let negative := decide (Nat.pow 2 63 ≤ word)
  if exponentField word = 2047 then
    if fractionField word = 0 then .infinite negative else .nan
  else .finite negative (units word)

/-- Reads a float. -/
def view (x : Float) : View := viewWord x.toBits.toNat

/-! ## Rounding a ratio -/

/-- The quotient of two natural numbers rounded to the nearest one, a half to the even one. -/
def roundDiv (num den : Nat) : Nat :=
  let quotient := num / den
  let twice := 2 * (num % den)
  if twice < den then quotient
  else if den < twice then quotient + 1
  else quotient + quotient % 2

/-- The bit pattern of the nonnegative float nearest to `num / den`.  The shift keeps 53 bits of
the quotient; the fields are then put together by one addition, in which a significand rounded
up to a power of two carries into the exponent. -/
def nearestWord (num den : Nat) : Nat :=
  let scaled := num * one
  let shift := Nat.log2 (scaled / den) - 52
  min infinityWord (shift * Nat.pow 2 52 + roundDiv scaled (den * Nat.pow 2 shift))

/-- The float nearest to `num / den`. -/
def nearest (num den : Nat) : Float := Float.ofBits (UInt64.ofNat (nearestWord num den))

/-- The bit pattern of so many units, where 53 bits hold them. -/
def wordOfUnits (u : Nat) : Nat :=
  let shift := Nat.log2 u - 52
  shift * Nat.pow 2 52 + u / Nat.pow 2 shift

/-- The float of so many units, where 53 bits hold them. -/
def ofUnits (u : Nat) : Float := Float.ofBits (UInt64.ofNat (wordOfUnits u))

/-- Gives a nonnegative float a sign. -/
def withSign (negative : Bool) (x : Float) : Float := if negative then -x else x

/-- The float of a natural number, rounded where it has more than 53 bits. -/
def ofNat (n : Nat) : Float := nearest n 1

/-- The float of an integer. -/
def ofInt (n : Int) : Float := withSign (decide (n < 0)) (ofNat n.natAbs)

/-! ## Whole parts and remainders -/

/-- Whether a number of units is a whole number. -/
def wholeUnits (u : Nat) : Bool := u % one == 0

/-- Whether a float is a whole number; infinities and NaN are not. -/
def isIntegral (x : Float) : Bool :=
  match view x with
  | .finite _ u => wholeUnits u
  | _ => false

/-- The whole part of the magnitude of a finite float, `0` for the others. -/
def truncated (x : Float) : Nat :=
  match view x with
  | .finite _ u => u / one
  | _ => 0

/-- The canonical NaN. -/
def nan : Float := Float.ofBits 0x7FF8000000000000

/-- The remainder of the division of `x` by `y` with a quotient truncated toward zero.  It has the
sign of `x` and is exact: both magnitudes are whole numbers of units, and their remainder needs no more
bits than they do. -/
def remainder (x y : Float) : Float :=
  match view x, view y with
  | .finite negative a, .finite _ b =>
      if b = 0 then nan else withSign negative (ofUnits (a % b))
  | .finite _ _, .infinite _ => x
  | _, _ => nan

end Scriptlet.Number
