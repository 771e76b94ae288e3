import RecordStore.Decimal.Rounding

/-!
# Binary floating formats

The two formats of fields that hold real numbers. A number of a format is a bit pattern; here it
is taken apart into a whole number times a power of two, and an exact quotient is rounded to it.

## Main definitions

* `BinaryFormat.single`, `BinaryFormat.double` — the 32-bit and the 64-bit format.
* `BinaryFormat.decode` — the number that a bit pattern stands for.
* `BinaryFormat.nearest` — the bit pattern nearest to a quotient, ties to even.
-/

namespace RecordStore.Decimal

/-- A format of one sign bit, `exponentBits` bits of exponent and `fractionBits` of fraction. The
bounds of its numbers are kept with it. -/
structure BinaryFormat where
  exponentBits : Nat
  fractionBits : Nat
  /-- The number of fractions. -/
  fractions : Nat
  /-- The bits of the positive infinity. -/
  infinity : Nat
  /-- The exponent of the least positive number. -/
  minExponent : Int
  fractions_eq : fractions = Nat.pow 2 fractionBits
  infinity_eq : infinity = (Nat.pow 2 exponentBits - 1) * fractions
  minExponent_eq : minExponent = 2 - (Nat.pow 2 (exponentBits - 1) : Int) - (fractionBits : Int)
  deriving DecidableEq, Repr

inductive Number
  | nan
  | infinite (negative : Bool)
  /-- The number `mantissa * 2 ^ exponent`, or its opposite. -/
  | finite (negative : Bool) (mantissa : Nat) (exponent : Int)
  deriving DecidableEq, Repr

namespace BinaryFormat

def single : BinaryFormat :=
  ⟨8, 23, 0x800000, 0x7f800000, -149, by decide, by decide, by decide⟩

def double : BinaryFormat :=
  ⟨11, 52, 0x10000000000000, 0x7ff0000000000000, -1074, by decide, by decide, by decide⟩

/-- The bits of the negative zero. -/
def signBit (f : BinaryFormat) : Nat := f.infinity + f.fractions

def quietNan (f : BinaryFormat) : Nat := f.infinity + f.fractions / 2

def decode (f : BinaryFormat) (bits : Nat) : Number :=
  let negative := f.signBit ≤ bits
  let magnitude := bits % f.signBit
  if f.infinity < magnitude then .nan
  else if magnitude = f.infinity then .infinite negative
  else
    let field := magnitude / f.fractions
    let fraction := magnitude % f.fractions
    if field = 0 then .finite negative fraction f.minExponent
    else .finite negative (f.fractions + fraction) (f.minExponent + (field - 1 : Nat))

/-- The bits of the nonnegative number nearest to a quotient, ties to the even fraction. A
quotient beyond the greatest number gives infinity. The exponent is the one of the quotient's
unit in the last place; a carry out of the fraction moves into the exponent by itself. -/
def nearest (f : BinaryFormat) (q : Quotient) : Nat :=
  if q.num = 0 then 0
  else
    let exponent := max f.minExponent (q.floorLog 2 - f.fractionBits)
    let mantissa := (q.scale 2 (-exponent)).roundHalfEven
    min f.infinity ((exponent - f.minExponent).toNat * f.fractions + mantissa)

/-- Beyond this many decades from one, a decimal is zero or infinite in either format. -/
def maxDecade : Nat := 400

def ofDecimal (f : BinaryFormat) (digits : Nat) (exponent : Int) : Nat :=
  if digits = 0 then 0
  else if (maxDecade : Int) < exponent then f.infinity
  else if exponent < -(maxDecade : Int)
    && exponent + (wholeLog 10 digits : Int) < -(maxDecade : Int) then 0
  else f.nearest (Quotient.scale ⟨digits, 1⟩ 10 exponent)

end BinaryFormat

end RecordStore.Decimal
