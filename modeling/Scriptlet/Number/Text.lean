import Scriptlet.Number.Decimal

/-!
# Number texts

A script number is written in three ways, which differ in a few decisions gathered in a
`TextStyle`.  `valueStyle` is how a running script shows a number, `tokenStyle` how a token listing
shows the value of a number token, and `literalStyle` how a program tree shows a literal.
`jsonText?` writes a number in JSON, with an exponent for very large and very small magnitudes.
-/

set_option autoImplicit false

namespace Scriptlet.Number

/-- The decisions of a number text. -/
structure TextStyle where
  /-- Whole magnitudes for which this holds are written with all their digits, the others as
  their shortest decimal. -/
  writesExactly : Nat → Bool
  /-- What follows the digits of an exactly written whole number. -/
  wholeSuffix : String
  /-- The text of positive infinity. -/
  infinity : String

/-- A value shown by a script: whole numbers exactly and without a point. -/
def valueStyle : TextStyle := ⟨fun _ => true, "", "Infinity"⟩

/-- A number token: whole numbers below `2 ^ 63` exactly and with one decimal. -/
def tokenStyle : TextStyle := ⟨fun n => decide (n < Nat.pow 2 63), ".0", "inf"⟩

/-- A literal of a program tree: whole numbers exactly and with one decimal. -/
def literalStyle : TextStyle := ⟨fun _ => true, ".0", "inf"⟩

/-- The text of a finite magnitude. -/
def TextStyle.magnitude (style : TextStyle) (word : Nat) : String :=
  let u := units word
  if wholeUnits u && style.writesExactly (u / one) then (u / one).repr ++ style.wholeSuffix
  else (shortestWord .up word).positional

/-- The text of a float.  The sign is written whenever it is set, so `-0.0` has one. -/
def TextStyle.text (style : TextStyle) (x : Float) : String :=
  match view x with
  | .nan => "NaN"
  | .infinite negative => (if negative then "-" else "") ++ style.infinity
  | .finite negative _ =>
      (if negative then "-" else "") ++ style.magnitude (magnitudeWord x)

/-! ## JSON -/

/-- The significant digits of a decimal: no zero at either end, but at least one digit. -/
def Decimal.significant (d : Decimal) : List Char :=
  let digits := ((Nat.toDigits 10 d.coefficient).reverse.dropWhile (· == '0')).reverse
  if digits.isEmpty then ['0'] else digits

/-- The power of ten of the first digit of the coefficient. -/
def Decimal.scientificExponent (d : Decimal) : Int :=
  (digitCount d.coefficient : Int) - 1 - d.places

/-- Scientific notation: one digit before the point, a signed exponent. -/
def Decimal.scientific (d : Decimal) : String :=
  let mantissa := match d.significant with
    | [] => []
    | [c] => [c]
    | c :: more => c :: '.' :: more
  let e := d.scientificExponent
  let sign := if e < 0 then "-" else "+"
  String.ofList mantissa ++ "e" ++ sign ++ e.natAbs.repr

/-- A finite magnitude in JSON: at least one decimal, and an exponent outside `10 ^ -5` to `10 ^ 16`.
Of two equally near decimals JSON takes the even one, the other texts take the upper one. -/
def jsonMagnitude (d : Decimal) : String :=
  let e := d.scientificExponent
  if d.coefficient = 0 then "0.0"
  else if -5 ≤ e ∧ e < 16 then
    if d.places = 0 then d.positional ++ ".0" else d.positional
  else d.scientific

/-- A float in JSON, which has no text for infinities and NaN. -/
def jsonText? (x : Float) : Option String :=
  match view x with
  | .finite negative _ =>
      some ((if negative then "-" else "") ++ jsonMagnitude (shortestWord .even (magnitudeWord x)))
  | _ => none

end Scriptlet.Number
