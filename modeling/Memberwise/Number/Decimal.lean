import Memberwise.Number.Binary

/-!
# Floats in decimal

A decimal is read as the nearest float. In the other direction, a float stands
for an interval of reals: those that round to it. Among the decimals in that
interval the text shows one with fewest digits, and of those the nearest to the
float. It is written positionally, never with an exponent.
-/

namespace Memberwise.Number

/-- The number `digits * 10 ^ exponent`. -/
structure Decimal where
  digits : Nat
  exponent : Int
deriving DecidableEq, Repr

/-- The float nearest to a decimal. -/
def Decimal.toFloat (d : Decimal) : Float :=
  Float.ofScientific d.digits (d.exponent < 0) d.exponent.natAbs

/--
A positive float and the interval that rounds to it, in quarters of its last
binary place. The gap below a power of two is half the gap above it.
-/
structure Rounding where
  value : Nat
  low : Nat
  high : Nat
  exponent : Int
  /-- Whether the ends of the interval round to the float, too. -/
  closed : Bool

/-- The interval of reals that round to a positive float. -/
def Rounding.of (b : Binary) : Rounding where
  value := 4 * b.mantissa
  low := 4 * b.mantissa - if b.mantissa = leadingBit then 1 else 2
  high := 4 * b.mantissa + 2
  exponent := b.exponent - 2
  closed := b.mantissa % 2 = 0

/--
The multiple of `10 ^ place` in the interval that is nearest to the float. Only
the two multiples next to the float need to be tried; the upper one wins a tie.
-/
def Rounding.nearest? (r : Rounding) (place : Int) : Option Nat :=
  let scale := Nat.pow 10 (-place).toNat <<< r.exponent.toNat
  let unit := Nat.pow 10 place.toNat <<< (-r.exponent).toNat
  let value := r.value * scale
  let below := value / unit
  let reaches (least most : Nat) : Bool := if r.closed then least ≤ most else least < most
  let down := reaches (r.low * scale) (below * unit)
  let up := reaches ((below + 1) * unit) (r.high * scale)
  if up && (!down || (2 * below + 1) * unit ≤ 2 * value) then some (below + 1)
  else if down then some below
  else none

/-- The first place, from `place` downwards, that has a decimal in the interval. -/
def Rounding.search (r : Rounding) : Nat → Int → Decimal
  | 0, place => ⟨0, place⟩
  | tries + 1, place =>
    match r.nearest? place with
    | some digits => ⟨digits, place⟩
    | none => r.search tries (place - 1)

/--
The decimal with fewest digits that rounds to a positive float. Seventeen digits
always suffice, and the first place tried is at most two above the first digit.
-/
def Binary.shortest (b : Binary) : Decimal :=
  let place := (b.mantissa.log2 + 1 + b.exponent) * 30103 / 100000 + 1
  (Rounding.of b).search 20 place

/-- A positive decimal in positional notation. -/
def Decimal.text (d : Decimal) : String :=
  let digits := Nat.repr d.digits
  if 0 ≤ d.exponent then digits ++ "".pushn '0' d.exponent.toNat
  else
    let places := (-d.exponent).toNat
    if places < digits.length then
      let cut := digits.length - places
      String.ofList (digits.toList.take cut) ++ "." ++ String.ofList (digits.toList.drop cut)
    else "0." ++ "".pushn '0' (places - digits.length) ++ digits

/-- The text of a float. -/
def text (x : Float) : String :=
  if x.isNaN then "NaN"
  else
    let sign := if isNegative x then "-" else ""
    if x.isInf then sign ++ "inf"
    else if x == 0 then sign ++ "0"
    else sign ++ (magnitude x).shortest.text

end Memberwise.Number
