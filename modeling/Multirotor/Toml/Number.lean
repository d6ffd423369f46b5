import Multirotor.Decimal
import Multirotor.Toml.Quoted

/-!
# Numbers and dates in TOML

Integers are decimal, or hexadecimal, octal or binary without a sign, and
fit in sixty-four bits. A float has places or an exponent. Single
underscores may stand between digits.
-/

namespace Multirotor.Toml

open Text Text.Reader

/-- Digits, single underscores between them dropped. -/
def digits (p : Char → Bool) : Reader (List Char) := do
  let first ← char p
  let more ← many do
    let _ ← optional (word "_")
    char p
  return first :: more

def sign : Reader Bool := (do word "-"; return true) <|> (do word "+"; return false) <|> pure false

/-- The digits of a decimal whole number: a zero stands in front only alone. -/
def wholeDigits : Reader (List Char) := do
  let ds ← (do word "0"; return ['0']) <|> digits Char.isDigit
  return ds

def integerLimit : Int := 0x8000000000000000

def bounded (n : Int) : Reader Int :=
  if -integerLimit ≤ n ∧ n < integerLimit then return n else failure

def basedInteger (mark : String) (base : Nat) (p : Char → Bool) : Reader Int := do
  word mark
  bounded (digitsIn base (← digits p))

def decimalInteger : Reader Int := do
  let negative ← sign
  let n : Int := Decimal.natural (← wholeDigits)
  bounded (if negative then -n else n)

def integer : Reader Int :=
  basedInteger "0x" 16 isHexDigit
  <|> basedInteger "0o" 8 (fun c => '0' ≤ c && c ≤ '7')
  <|> basedInteger "0b" 2 (fun c => c == '0' || c == '1')
  <|> decimalInteger

def exponent : Reader Int := do
  let _ ← char fun c => c == 'e' || c == 'E'
  let negative ← sign
  let n : Int := Decimal.natural (← digits Char.isDigit)
  return if negative then -n else n

def places : Reader (List Char) := do
  word "."
  digits Char.isDigit

/-- A magnitude with places, an exponent or both; or one of the words for infinite and undefined
numbers. -/
def magnitude : Reader Float :=
  (do word "inf"; return 1.0 / 0.0)
  <|> (do word "nan"; return 0.0 / 0.0)
  <|> (do
    let whole ← wholeDigits
    let ps ← places
    let e ← exponent <|> pure 0
    return Decimal.nearest (Decimal.natural (whole ++ ps)) (e - ps.length))
  <|> (do
    let whole ← wholeDigits
    return Decimal.nearest (Decimal.natural whole) (← exponent))

/-- A number too large for a float is none, unless it is negative or written as infinite. -/
def float : Reader Float := do
  let negative ← sign
  let spelled := (← get).head?.any Char.isAlpha
  let x ← magnitude
  if negative then return -x
  else if x.isInf && !spelled then failure
  else return x

def field (n low high : Nat) : Reader Nat := do
  let value := Decimal.natural (← times (char Char.isDigit) n)
  if low ≤ value ∧ value ≤ high then return value else failure

def daysIn (year month : Nat) : Nat :=
  if month = 2 then
    if year % 4 = 0 ∧ (year % 100 ≠ 0 ∨ year % 400 = 0) then 29 else 28
  else if month = 4 ∨ month = 6 ∨ month = 9 ∨ month = 11 then 30 else 31

def date : Reader Unit := do
  let year ← field 4 0 9999
  word "-"
  let month ← field 2 1 12
  word "-"
  let _ ← field 2 1 (daysIn year month)

def hourAndMinute : Reader Unit := do
  let _ ← field 2 0 23
  word ":"
  let _ ← field 2 0 59

/-- A time of day; a leap second has the number sixty. -/
def time : Reader Unit := do
  hourAndMinute
  word ":"
  let _ ← field 2 0 60
  let _ ← optional do
    word "."
    run₁ Char.isDigit

def offset : Reader Unit :=
  (do let _ ← char fun c => c == 'Z' || c == 'z')
  <|> do
    let _ ← char fun c => c == '+' || c == '-'
    hourAndMinute

def moment : Reader Unit :=
  (do
    date
    let _ ← optional do
      let _ ← char fun c => c == 'T' || c == 't' || c == ' '
      time
      optional offset)
  <|> time

end Multirotor.Toml
