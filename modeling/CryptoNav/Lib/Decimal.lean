import Mathlib.Data.Rat.Floor
import Mathlib.Data.String.Basic

/-!
# Decimal texts and binary64 numbers

Reading a decimal text, either exactly (`Decimal.value`, what a `numeric` column stores) or
rounded to the nearest binary64 number (`parseFloat`), and writing a binary64 number with
eighteen decimals. `Float` is Lean's own binary64, whose operations are defined by the standard's
rounding; what is added here are the texts.

The grammar of `parseFloat` is that of `str::parse::<f64>`: an optional sign, digits with at
most one point among them, an exponent, and the words for the infinities and NaN. Digits in
groups, blanks around the number and other bases are no numbers. A `Decimal` keeps the digits as
an integer and the place of the point as an exponent, so that the exact reading and the rounded
one start from the same thing: what separates them is the last rounding only. A `numeric` column
has no infinities, so the exact reading is of decimals alone.
-/

set_option autoImplicit false

namespace CryptoNav.Lib

/-- A decimal text: a sign, digits without the point and the power of ten they stand at. -/
structure Decimal where
  negative : Bool
  digits : ℕ
  exponent : ℤ
deriving DecidableEq

namespace Decimal

def value (d : Decimal) : ℚ := (if d.negative then -1 else 1) * d.digits * 10 ^ d.exponent

/-- The nearest binary64 number, infinite where the decimal is out of range. -/
def toFloat (d : Decimal) : Float :=
  let magnitude := Float.ofScientific d.digits (d.exponent < 0) d.exponent.natAbs
  if d.negative then -magnitude else magnitude

end Decimal

/-! ## Reading -/

/-- The optional sign of a text, and the rest. -/
def readSign : List Char → Bool × List Char
  | '-' :: rest => (true, rest)
  | '+' :: rest => (false, rest)
  | rest => (false, rest)

def digitsValue (digits : List Char) : ℕ := digits.foldl (fun n c => 10 * n + (c.toNat - 48)) 0

/-- The exponent that may end a decimal text. -/
def readExponent : List Char → Option ℤ
  | [] => some 0
  | c :: rest =>
    if c.toLower = 'e' then
      let (negative, digits) := readSign rest
      if digits ≠ [] ∧ digits.all Char.isDigit then
        some (if negative then -digitsValue digits else digitsValue digits)
      else none
    else none

/-- The fraction after a point, and the rest. -/
def readFraction : List Char → List Char × List Char
  | '.' :: rest => (rest.takeWhile Char.isDigit, rest.dropWhile Char.isDigit)
  | rest => ([], rest)

/-- A decimal: digits with a point among them or none, at least one of them, and an exponent. -/
def parseDecimal (text : List Char) : Option Decimal :=
  let (negative, rest) := readSign text
  let whole := rest.takeWhile Char.isDigit
  let (fraction, rest) := readFraction (rest.dropWhile Char.isDigit)
  if whole ++ fraction = [] then none
  else
    (readExponent rest).map fun exponent =>
      { negative, digits := digitsValue (whole ++ fraction), exponent := exponent - fraction.length }

/-- `str::parse::<f64>`: a decimal rounded to the nearest number, an infinity or no number. -/
def parseFloat (text : List Char) : Option Float :=
  let (negative, rest) := readSign text
  let word := rest.map Char.toLower
  if word = ['i', 'n', 'f'] ∨ word = ['i', 'n', 'f', 'i', 'n', 'i', 't', 'y'] then
    some (if negative then -1 / 0 else 1 / 0)
  else if word = ['n', 'a', 'n'] then some (0 / 0)
  else (parseDecimal text).map Decimal.toFloat

/-- `str::parse::<i64>`. -/
def parseInt (text : List Char) : Option ℤ :=
  let (negative, digits) := readSign text
  if digits ≠ [] ∧ digits.all Char.isDigit then
    let n : ℤ := if negative then -digitsValue digits else digitsValue digits
    if -2 ^ 63 ≤ n ∧ n < 2 ^ 63 then some n else none
  else none

/-! ## Exact values, rounding and writing -/

def isNegative (x : Float) : Bool :=
  match x.toModel.unpack with
  | .finite .negative .. | .zero .negative | .infinity .negative => true
  | _ => false

/-- The magnitude of a finite number. -/
def magnitude (x : Float) : ℚ :=
  match x.toModel.unpack with
  | .finite _ mantissa exponent _ => mantissa * 2 ^ exponent
  | _ => 0

/-- The nearest natural number, the even one of two that are as near. -/
def roundHalfEven (q : ℚ) : ℕ :=
  let below := q.floor.toNat
  if q - below < 1 / 2 ∨ (q - below = 1 / 2 ∧ below % 2 = 0) then below else below + 1

/-- `f64::round` of a finite number, as an `i64`: halves away from zero, clamped to the range. -/
def roundToInt (x : Float) : ℤ :=
  let whole := (magnitude x + 1 / 2).floor
  max (-2 ^ 63) (min (2 ^ 63 - 1) (if isNegative x then -whole else whole))

/-- The number with eighteen decimals. -/
def fixedDecimals (x : Float) : List Char :=
  let sign := if isNegative x then ['-'] else []
  if x.isNaN then ['N', 'a', 'N']
  else if x.isInf then sign ++ ['i', 'n', 'f']
  else
    let scaled := roundHalfEven (magnitude x * 10 ^ 18)
    let fraction := Nat.toDigits 10 (scaled % 10 ^ 18)
    sign ++ Nat.toDigits 10 (scaled / 10 ^ 18) ++
      '.' :: (List.replicate (18 - fraction.length) '0' ++ fraction)

end CryptoNav.Lib
