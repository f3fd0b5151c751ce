/-!
# Floats as integers times powers of two

The bits of a finite float give it exactly as `mantissa * 2 ^ exponent`. Exact
integer arithmetic on that form is what writing a float in decimal and taking
the remainder of two floats are defined by.
-/

namespace Memberwise.Number

/-- The number `mantissa * 2 ^ exponent`. -/
structure Binary where
  mantissa : Nat
  exponent : Int
deriving DecidableEq, Repr

/-- Whether the sign bit is set; zeros have a sign too. -/
def isNegative (x : Float) : Bool := x.toBits >>> 63 == 1

/-- The least exponent of a finite float. -/
def minExponent : Int := -1074

/-- The least mantissa of a normal float; its leading bit is not stored. -/
def leadingBit : Nat := 0x10000000000000

/-- The number of values that the stored exponent can take. -/
def exponentCount : Nat := 0x800

/-- The weight of the sign among the bits of a float. -/
def signBit : Nat := 0x8000000000000000

/-- The magnitude of a finite float. -/
def magnitude (x : Float) : Binary :=
  let fraction := x.toBits.toNat % leadingBit
  let biased := x.toBits.toNat / leadingBit % exponentCount
  if biased = 0 then ⟨fraction, minExponent⟩
  else ⟨leadingBit + fraction, minExponent + (biased - 1 : Nat)⟩

/-- The float with the given sign and magnitude, for a magnitude that some float has. -/
def Binary.toFloat (b : Binary) (negative : Bool) : Float :=
  let shift := min (52 - b.mantissa.log2) (b.exponent - minExponent).toNat
  let mantissa := b.mantissa <<< shift
  let biased := if mantissa < leadingBit then 0 else (b.exponent - minExponent).toNat - shift + 1
  let sign := if negative then signBit else 0
  Float.ofBits (UInt64.ofNat (sign + biased * leadingBit + mantissa % leadingBit))

/--
The remainder of the division that rounds its quotient toward zero. It is exact
and has the sign of the dividend. There is none for an infinite dividend or a
zero divisor.
-/
def remainder (x y : Float) : Float :=
  if x.isNaN || y.isNaN || x.isInf || y == 0 then 0 / 0
  else if y.isInf || x == 0 then x
  else
    let a := magnitude x
    let b := magnitude y
    let exponent := min a.exponent b.exponent
    let dividend := a.mantissa <<< (a.exponent - exponent).toNat
    let divisor := b.mantissa <<< (b.exponent - exponent).toNat
    Binary.toFloat ⟨dividend % divisor, exponent⟩ (isNegative x)

/-- The bits that tell two numbers apart: one pattern for zero and one for all that is no number. -/
def distinguishingBits (x : Float) : UInt64 :=
  if x.isNaN then 0x7ff8000000000000
  else if x.toBits <<< 1 = 0 then 0
  else x.toBits

/-- Equality of numbers under which the two zeros agree and a NaN equals itself. -/
def same (x y : Float) : Bool := distinguishingBits x = distinguishingBits y

theorem same_refl (x : Float) : same x x = true := by simp [same]

end Memberwise.Number
