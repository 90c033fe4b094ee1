import Scriptlet.Number.Binary64

/-!
# Decimals and the shortest decimal of a float

* `Decimal` — a number `coefficient / 10 ^ places`, as written with a point before the last
  `places` digits;
* `Decimal.toFloat` — reading: the nearest float;
* `Decimal.positional` — writing, without an exponent;
* `shortestWord` — the decimal of fewest significant digits that reads back as a given float; of two
  such decimals the nearer one, and the one that a `Tie` rule names when both are equally near.

The search visits the decimal grids of 1, 2, … 17 significant digits and on each tests
the two neighbours of the value by reading them back.
-/

set_option autoImplicit false

namespace Scriptlet.Number

/-- The number `coefficient / 10 ^ places`. -/
structure Decimal where
  coefficient : Nat
  places : Nat
  deriving DecidableEq, Repr

namespace Decimal

/-- The decimal with the given digits before and after its point. -/
def ofDigits (whole fraction : List Char) : Decimal :=
  ⟨Nat.ofDigitChars 10 (whole ++ fraction) 0, fraction.length⟩

/-- The bit pattern of the float nearest to a decimal. -/
def toWord (d : Decimal) : Nat := nearestWord d.coefficient (Nat.pow 10 d.places)

/-- The float nearest to a decimal. -/
def toFloat (d : Decimal) : Float := nearest d.coefficient (Nat.pow 10 d.places)

/-- The number `coefficient / 10 ^ places` without zeros at the end of its fraction. -/
def trimmed (coefficient : Nat) : Nat → Decimal
  | 0 => ⟨coefficient, 0⟩
  | places + 1 =>
      if coefficient % 10 = 0 then trimmed (coefficient / 10) places else ⟨coefficient, places + 1⟩

/-- The digits of `n`, filled up with leading zeros to a width. -/
def padded (width n : Nat) : List Char :=
  let digits := Nat.toDigits 10 n
  List.replicate (width - digits.length) '0' ++ digits

/-- The digits before the point. -/
def wholeDigits (d : Decimal) : List Char := Nat.toDigits 10 (d.coefficient / Nat.pow 10 d.places)

/-- The digits after the point. -/
def fractionDigits (d : Decimal) : List Char :=
  if d.places = 0 then [] else padded d.places (d.coefficient % Nat.pow 10 d.places)

/-- The decimal written without an exponent, with a point only where digits follow it. -/
def positional (d : Decimal) : String :=
  String.ofList <|
    if d.places = 0 then d.wholeDigits else d.wholeDigits ++ '.' :: d.fractionDigits

end Decimal

/-! ## The shortest decimal -/

/-- The number of decimal digits of `n`. -/
def digitCount (n : Nat) : Nat := (Nat.toDigits 10 n).length

/-- The power of ten of the first significant digit of a positive magnitude. -/
def leadingExponent (u : Nat) : Int :=
  if one ≤ u then (digitCount (u / one) : Int) - 1
  else -(digitCount ((one + u - 1) / u - 1) : Int)

/-- Which of two equally near decimals is taken. -/
inductive Tie where
  | up
  | even
  deriving DecidableEq, Repr

/-- A decimal grid: the multiples of `step / 10 ^ places`. -/
structure Grid where
  step : Nat
  places : Nat
  deriving DecidableEq, Repr

/-- The grid on which a number with this leading exponent has `digits` significant digits. -/
def Grid.ofDigits (leading : Int) (digits : Nat) : Grid :=
  let last := leading - digits + 1
  if 0 ≤ last then ⟨Nat.pow 10 last.toNat, 0⟩ else ⟨1, (-last).toNat⟩

/-- The last grid point not above `u` units. -/
def Grid.below (g : Grid) (u : Nat) : Decimal :=
  ⟨u * Nat.pow 10 g.places / (one * g.step) * g.step, g.places⟩

/-- The grid point after `d`.  It may carry into a shorter decimal. -/
def Grid.next (g : Grid) (d : Decimal) : Decimal := .trimmed (d.coefficient + g.step) d.places

/-- Whether of the grid points `d` and the next one, around `u` units, the lower is taken. -/
def Grid.takesLower (g : Grid) (tie : Tie) (u : Nat) (d : Decimal) : Bool :=
  match compare (2 * u * Nat.pow 10 g.places) ((2 * d.coefficient + g.step) * one), tie with
  | .lt, _ => true
  | .gt, _ => false
  | .eq, .up => false
  | .eq, .even => d.coefficient / g.step % 2 == 0

/-- The neighbour of `u` units on a grid that reads back as `word`, the nearer one if both do. -/
def Grid.hit? (g : Grid) (tie : Tie) (word u : Nat) : Option Decimal :=
  let low := g.below u
  let high := g.next low
  if low.toWord = word then
    if high.toWord = word ∧ g.takesLower tie u low = false then some high else some low
  else if high.toWord = word then some high
  else none

/-- The exact decimal value of `u` units. -/
def exactDecimal (u : Nat) : Decimal := ⟨u * Nat.pow 5 1074, 1074⟩

/-- The decimal of fewest significant digits that reads back as the finite bit pattern `word`.
Seventeen digits tell all floats apart; past them the exact value would be given. -/
def shortestWord (tie : Tie) (word : Nat) : Decimal :=
  let u := units word
  if u = 0 then ⟨0, 0⟩
  else
    let leading := leadingExponent u
    ((List.range 17).findSome? fun k => (Grid.ofDigits leading (k + 1)).hit? tie word u).getD
      (exactDecimal u)

/-- The bit pattern of the magnitude of a float. -/
def magnitudeWord (x : Float) : Nat := x.toBits.toNat % Nat.pow 2 63

end Scriptlet.Number
