import Unbroken.Toml.Text
import Unbroken.Toml.Value

/-! Numbers, truth values and points in time. -/

namespace Unbroken.Toml

def isDigitOf (base : Nat) (letter : Char) : Bool :=
  match hexValue? letter with
  | some digit => digit < base
  | none => false

def laterDigit (base : Nat) : Reader Char
  | '_' :: letter :: rest => if isDigitOf base letter then some (letter, rest) else none
  | letter :: rest => if isDigitOf base letter then some (letter, rest) else none
  | [] => none

def digitRun (base : Nat) : Reader (List Char)
  | [] => none
  | first :: rest =>
    if isDigitOf base first then
      let (digits, rest) := Reader.many (laterDigit base) rest
      some (first :: digits, rest)
    else none

def sign : List Char → Bool × List Char
  | '-' :: rest => (true, rest)
  | '+' :: rest => (false, rest)
  | text => (false, text)

def wholeDigits : Reader (List Char)
  | '0' :: rest => some (['0'], rest)
  | text => digitRun 10 text

def fraction : Reader (List Char)
  | '.' :: rest => digitRun 10 rest
  | text => some ([], text)

def exponent : Reader (Option Int)
  | letter :: rest =>
    if letter = 'e' ∨ letter = 'E' then do
      let (negative, rest) := sign rest
      let (digits, rest) ← digitRun 10 rest
      let value ← numeral? 10 digits
      some (some (if negative then -(value : Int) else value), rest)
    else some (none, letter :: rest)
  | [] => some (none, [])

def wholeNumber? (value : Int) : Option Value :=
  if -Int.pow 2 63 ≤ value ∧ value < Int.pow 2 63 then some (.integer value) else none

def floatingPoint? (negative : Bool) (decimal : Decimal) : Option Value :=
  match Binary64.ofDecimal negative decimal with
  | .infinite false => none
  | value => some (.float value)

def decimalNumber (negative : Bool) : Reader Value := fun text => do
  let (whole, behindWhole) ← wholeDigits text
  let (places, rest) ← fraction behindWhole
  let (power, rest) ← exponent rest
  let digits ← numeral? 10 (whole ++ places)
  let value ←
    if places.isEmpty && power.isNone then
      wholeNumber? (if negative then -(digits : Int) else digits)
    else
      floatingPoint? negative { digits := digits, power := power.getD 0 - places.length }
  some (value, rest)

def specialFloat (negative : Bool) : Reader Value := fun text =>
  (Reader.word "inf" (.float (.infinite negative)) text).or
    (Reader.word "nan" (.float .notANumber) text)

def basedNumber : Reader Value
  | '0' :: letter :: rest => do
    let base ← match letter with
      | 'x' => some 16
      | 'o' => some 8
      | 'b' => some 2
      | _ => none
    let (digits, rest) ← digitRun base rest
    let value ← wholeNumber? (← numeral? base digits)
    some (value, rest)
  | _ => none

def number : Reader Value := fun text =>
  let (negative, unsigned) := sign text
  ((basedNumber text).or (decimalNumber negative unsigned)).or (specialFloat negative unsigned)

def boolean : Reader Value := fun text =>
  (Reader.word "true" (.boolean true) text).or (Reader.word "false" (.boolean false) text)

def field (count least greatest : Nat) : Reader Nat := fun text => do
  let digits := text.take count
  let value ← numeral? 10 digits
  if digits.length = count ∧ least ≤ value ∧ value ≤ greatest then some (value, text.drop count)
  else none

def daysOf (year month : Nat) : Nat :=
  if month = 2 then
    if year % 4 = 0 ∧ (year % 100 ≠ 0 ∨ year % 400 = 0) then 29 else 28
  else if month = 4 ∨ month = 6 ∨ month = 9 ∨ month = 11 then 30
  else 31

def date : Reader Unit := fun text => do
  let (year, rest) ← field 4 0 9999 text
  let ((), rest) ← Reader.mark '-' rest
  let (month, rest) ← field 2 1 12 rest
  let ((), rest) ← Reader.mark '-' rest
  let (_, rest) ← field 2 1 (daysOf year month) rest
  some ((), rest)

def time : Reader Unit := fun text => do
  let (_, rest) ← field 2 0 23 text
  let ((), rest) ← Reader.mark ':' rest
  let (_, rest) ← field 2 0 59 rest
  let ((), rest) ← Reader.mark ':' rest
  let (_, rest) ← field 2 0 60 rest
  match rest with
  | '.' :: decimals =>
    let behind := decimals.dropWhile (isDigitOf 10)
    if behind.length < decimals.length then some ((), behind) else some ((), rest)
  | _ => some ((), rest)

def offset : Reader Unit
  | 'Z' :: rest | 'z' :: rest => some ((), rest)
  | letter :: rest =>
    if letter = '+' ∨ letter = '-' then do
      let (_, rest) ← field 2 0 23 rest
      let ((), rest) ← Reader.mark ':' rest
      let (_, rest) ← field 2 0 59 rest
      some ((), rest)
    else none
  | [] => none

def timeOfDate : Reader Unit
  | letter :: rest =>
    if letter = 'T' ∨ letter = 't' ∨ letter = ' ' then do
      let ((), rest) ← time rest
      (offset rest).or (some ((), rest))
    else none
  | [] => none

def dateTime : Reader Value := fun text => do
  let dated := do
    let ((), rest) ← date text
    (timeOfDate rest).or (some ((), rest))
  let ((), rest) ← dated.or (time text)
  some (.dateTime (text.take (text.length - rest.length)), rest)

end Unbroken.Toml
