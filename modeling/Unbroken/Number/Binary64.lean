/-! Floating point numbers with 53 significant bits, in exact arithmetic: reading a decimal, rounded
to the nearest such number, and writing the shortest decimal that reads back. -/

namespace Unbroken

structure Decimal where
  digits : Nat
  power : Int
  deriving DecidableEq, Repr

/-- A finite number is `mantissa * 2 ^ exponent` with its sign. Its mantissa has 53 bits, except
that it may have fewer at the least exponent. -/
inductive Binary64 where
  | finite (negative : Bool) (mantissa : Nat) (exponent : Int)
  | infinite (negative : Bool)
  | notANumber
  deriving DecidableEq, Repr

namespace Decimal

def ratio (decimal : Decimal) : Nat × Nat :=
  (decimal.digits * Nat.pow 10 decimal.power.toNat, Nat.pow 10 (-decimal.power).toNat)

def digitCount (value : Nat) : Nat :=
  (Nat.toDigits 10 value).length

def dropZeros : (limit : Nat) → Decimal → Decimal
  | 0, decimal => decimal
  | limit + 1, decimal =>
    if decimal.digits ≠ 0 ∧ decimal.digits % 10 = 0 then
      dropZeros limit { digits := decimal.digits / 10, power := decimal.power + 1 }
    else decimal

def positional (decimal : Decimal) : String :=
  let digits := toString decimal.digits
  if 0 ≤ decimal.power then digits ++ "".pushn '0' decimal.power.toNat ++ ".0"
  else
    let places := (-decimal.power).toNat
    let padded := "".pushn '0' (places + 1 - digits.length) ++ digits
    let whole := padded.length - places
    String.ofList (padded.toList.take whole) ++ "." ++ String.ofList (padded.toList.drop whole)

end Decimal

namespace Binary64

def leastExponent : Int := -1074

def greatestExponent : Int := 971

def roundHalfEven (numerator denominator : Nat) : Nat :=
  let whole := numerator / denominator
  let rest := 2 * (numerator % denominator)
  if rest < denominator ∨ (rest = denominator ∧ whole % 2 = 0) then whole else whole + 1

def ofRatio (negative : Bool) (numerator denominator : Nat) : Binary64 :=
  let guess : Int := (numerator.log2 : Int) - denominator.log2 - 53
  let scaled := fun exponent : Int =>
    (numerator * Nat.pow 2 (-exponent).toNat, denominator * Nat.pow 2 exponent.toNat)
  let (first, second) := scaled guess
  let tight := if first < second * Nat.pow 2 53 then guess else guess + 1
  let exponent := max tight leastExponent
  let (first, second) := scaled exponent
  let mantissa := roundHalfEven first second
  let (mantissa, exponent) :=
    if mantissa = Nat.pow 2 53 then (Nat.pow 2 52, exponent + 1) else (mantissa, exponent)
  if greatestExponent < exponent then infinite negative else finite negative mantissa exponent

def ofDecimal (negative : Bool) (decimal : Decimal) : Binary64 :=
  let magnitude := decimal.power + Decimal.digitCount decimal.digits
  if decimal.digits = 0 ∨ magnitude < -330 then finite negative 0 leastExponent
  else if 320 < magnitude then infinite negative
  else
    let (numerator, denominator) := decimal.ratio
    ofRatio negative numerator denominator

def onGrid? (value least greatest grid : Nat) (inclusive : Bool) : Option Nat :=
  let lower := value / grid
  let upper := lower + 1
  let fits := fun candidate : Nat =>
    if inclusive then decide (least ≤ candidate * grid ∧ candidate * grid ≤ greatest)
    else decide (least < candidate * grid ∧ candidate * grid < greatest)
  match fits lower, fits upper with
  | true, true => some (if value - lower * grid < upper * grid - value then lower else upper)
  | true, false => some lower
  | false, true => some upper
  | false, false => none

/-- The decimal with the fewest digits that reads back as a positive number, trying `count` grids
from the coarsest, whose power of ten is given. -/
def shortestFrom (mantissa : Nat) (exponent : Int) : (count : Nat) → (power : Int) → Decimal
  | 0, power => { digits := 0, power := power }
  | count + 1, power =>
    let twos := exponent - 2
    let factor := Nat.pow 2 twos.toNat * Nat.pow 10 (-power).toNat
    let value := 4 * mantissa * factor
    let below := if mantissa = Nat.pow 2 52 ∧ leastExponent < exponent then 1 else 2
    let least := (4 * mantissa - below) * factor
    let greatest := (4 * mantissa + 2) * factor
    let grid := Nat.pow 2 (-twos).toNat * Nat.pow 10 power.toNat
    match onGrid? value least greatest grid (mantissa % 2 == 0) with
    | some digits => Decimal.dropZeros 17 { digits := digits, power := power }
    | none => shortestFrom mantissa exponent count (power - 1)

def leadingPower (mantissa : Nat) (exponent : Int) : Int :=
  let shift : Nat := 350
  let scaled := mantissa * Nat.pow 2 exponent.toNat * Nat.pow 10 shift / Nat.pow 2 (-exponent).toNat
  (Decimal.digitCount scaled : Int) - 1 - shift

def shortest (mantissa : Nat) (exponent : Int) : Decimal :=
  if mantissa = 0 then { digits := 0, power := 0 }
  else shortestFrom mantissa exponent 18 (leadingPower mantissa exponent)

def positional : Binary64 → String
  | finite negative mantissa exponent =>
    (if negative then "-" else "") ++ (shortest mantissa exponent).positional
  | infinite negative => if negative then "-inf" else "inf"
  | notANumber => "NaN"

end Binary64

end Unbroken
