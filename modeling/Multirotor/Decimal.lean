/-!
# Decimal text of floats

A finite float is an exact binary fraction. It is written with the fewest
digits that read back as the same float, found on the coarsest decimal grid
with a point inside the interval of reals that round to it; and a decimal is
read as the float nearest to it.
-/

namespace Multirotor

/-- The finite float `± mantissa · 2 ^ exponent`. -/
structure BinaryFraction where
  negative : Bool
  mantissa : Nat
  exponent : Int

namespace BinaryFraction

def ofFloat? (x : Float) : Option BinaryFraction :=
  let bits : Nat := x.toBits.toNat
  let negative : Bool := decide (Nat.pow 2 63 ≤ bits)
  let biased : Nat := bits / Nat.pow 2 52 % Nat.pow 2 11
  let fraction : Nat := bits % Nat.pow 2 52
  if biased = 2047 then none
  else if biased = 0 then some ⟨negative, fraction, -1074⟩
  else some ⟨negative, Nat.pow 2 52 + fraction, (biased : Int) - 1075⟩

def quotient (b : BinaryFraction) : Nat × Nat :=
  match b.exponent with
  | .ofNat e => (b.mantissa * Nat.pow 2 e, 1)
  | .negSucc e => (b.mantissa, Nat.pow 2 (e + 1))

def quotientOn (b : BinaryFraction) (grid : Int) : Nat × Nat :=
  let (n, d) := b.quotient
  match grid with
  | .ofNat g => (n, d * Nat.pow 10 g)
  | .negSucc g => (n * Nat.pow 10 (g + 1), d)

/-- The multiple of `10 ^ grid` nearest to the magnitude; a half goes up. -/
def nearestOn (b : BinaryFraction) (grid : Int) : Nat :=
  let (n, d) := b.quotientOn grid
  (2 * n + d) / (2 * d)

/-- The reals that round to the magnitude, in quarters of the last binary place: from the first
number to the second, ends included if the mantissa is even. -/
def roundingInterval (b : BinaryFraction) : Nat × Nat :=
  let below := if b.mantissa = Nat.pow 2 52 ∧ -1074 < b.exponent then 1 else 2
  (4 * b.mantissa - below, 4 * b.mantissa + 2)

def readsBack (b : BinaryFraction) (grid : Int) (count : Nat) : Bool :=
  let (low, high) := b.roundingInterval
  let (n, d) := ({ b with mantissa := 1 } : BinaryFraction).quotientOn grid
  let at4 := 4 * count * d
  if b.mantissa % 2 = 0 then low * n ≤ at4 && at4 ≤ high * n
  else low * n < at4 && at4 < high * n

/-- The first of `steps` grids, from `grid` downwards, whose nearest point reads back. -/
def coarsest (b : BinaryFraction) : Nat → Int → Nat × Int
  | 0, grid => (b.nearestOn grid, grid)
  | steps + 1, grid =>
    let count := b.nearestOn grid
    if b.readsBack grid count then (count, grid) else coarsest b steps (grid - 1)

/-- The fewest digits that read back as the magnitude, and the power of ten of the last one. -/
def shortest (b : BinaryFraction) : Nat × Int :=
  if b.mantissa = 0 then (0, 0) else b.coarsest 660 310

end BinaryFraction

namespace Decimal

def positional (count : Nat) (grid : Int) : String :=
  let digits := toString count
  match grid with
  | .ofNat g => if count = 0 then "0" else digits ++ "".pushn '0' g
  | .negSucc g =>
    let places := g + 1
    let padded := "".pushn '0' (places + 1 - digits.length) ++ digits
    let whole := padded.length - places
    String.ofList (padded.toList.take whole) ++ "." ++ String.ofList (padded.toList.drop whole)

def text (x : Float) : String :=
  match BinaryFraction.ofFloat? x with
  | some b =>
    let (count, grid) := b.shortest
    (if b.negative then "-" else "") ++ positional count grid
  | none => if x.isNaN then "NaN" else if 0 < x then "inf" else "-inf"

/-- The float nearest to `mantissa · 10 ^ exponent`. Beyond the range of floats the power is not
worked out. -/
def nearest (mantissa : Nat) (exponent : Int) : Float :=
  let top := (Nat.toDigits 10 mantissa).length + exponent
  if mantissa = 0 ∨ top < -400 then 0.0
  else if 400 < top then 1.0 / 0.0
  else match exponent with
    | .ofNat e => Float.ofScientific mantissa false e
    | .negSucc e => Float.ofScientific mantissa true (e + 1)

def natural (digits : List Char) : Nat :=
  digits.foldl (fun n c => 10 * n + (c.toNat - '0'.toNat)) 0

/-- An exponent, `e` or `E`, an optional sign and digits; nothing at all is the exponent zero. -/
def readExponent? : List Char → Option Int
  | [] => some 0
  | e :: rest =>
    if e = 'e' ∨ e = 'E' then
      let (negative, digits) := match rest with
        | '-' :: ds => (true, ds)
        | '+' :: ds => (false, ds)
        | ds => (false, ds)
      if digits.isEmpty || digits.any (!·.isDigit) then none
      else some (if negative then -(natural digits : Int) else natural digits)
    else none

/-- An unsigned decimal: digits with an optional point, at least one digit, and an optional
exponent; or one of the words for infinite and undefined numbers, in any case. -/
def readMagnitude? (cs : List Char) : Option Float :=
  let word := String.ofList (cs.map Char.toLower)
  if word = "inf" ∨ word = "infinity" then some (1.0 / 0.0)
  else if word = "nan" then some (0.0 / 0.0)
  else
    let whole := cs.takeWhile Char.isDigit
    let (places, rest) := match cs.dropWhile Char.isDigit with
      | '.' :: more => (more.takeWhile Char.isDigit, more.dropWhile Char.isDigit)
      | more => ([], more)
    if whole.isEmpty && places.isEmpty then none
    else (readExponent? rest).map fun e =>
      nearest (natural (whole ++ places)) (e - places.length)

def read? : List Char → Option Float
  | '-' :: cs => (readMagnitude? cs).map fun x => -x
  | '+' :: cs => readMagnitude? cs
  | cs => readMagnitude? cs

end Decimal

end Multirotor
