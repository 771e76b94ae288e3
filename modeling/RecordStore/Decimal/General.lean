import RecordStore.Decimal.Binary
import RecordStore.Decimal.Digits

/-!
# Numbers with a given count of significant digits

A finite number is rounded to the wanted count of decimal digits. It is written with a point in
place when its decimal exponent is small and in scientific form otherwise; zeros that end the
fraction are dropped in both.

## Main definitions

* `Decimal.significant` — the digits and the decimal exponent of a rounded quotient.
* `Decimal.general` — the characters of a number.
-/

namespace RecordStore.Decimal

/-- A quotient rounded to `precision` decimal digits: a number of exactly that many digits, and
the exponent of its first digit. -/
def significant (precision : Nat) (q : Quotient) : Nat × Int :=
  let exponent := q.floorLog 10
  let digits := (q.scale 10 (precision - 1 - exponent)).roundHalfEven
  if digits = Nat.pow 10 precision then (Nat.pow 10 (precision - 1), exponent + 1)
  else (digits, exponent)

def trimZeros (fraction : List Char) : List Char :=
  (fraction.reverse.dropWhile (· = '0')).reverse

/-- A whole part and a fraction; the point goes with an empty fraction. -/
def pointed (whole fraction : List Char) : List Char :=
  match trimZeros fraction with
  | [] => whole
  | kept => whole ++ '.' :: kept

/-- The exponent of the scientific form: its sign and at least two digits. -/
def exponentText (exponent : Int) : List Char :=
  let digits := Nat.toDigits 10 exponent.natAbs
  'e' :: (if exponent < 0 then '-' else '+') ::
    (if digits.length < 2 then '0' :: digits else digits)

/-- Exponents from this one up to the precision are written with the point in place. -/
def minPointedExponent : Int := -4

def digitsText (precision : Nat) (digits : Nat) (exponent : Int) : List Char :=
  let chars := Digits.chars precision digits
  if exponent < minPointedExponent || (precision : Int) ≤ exponent then
    pointed (chars.take 1) (chars.drop 1) ++ exponentText exponent
  else if exponent < 0 then
    pointed ['0'] (List.replicate (-exponent - 1).toNat '0' ++ chars)
  else pointed (chars.take (exponent.toNat + 1)) (chars.drop (exponent.toNat + 1))

def binaryQuotient (mantissa : Nat) (exponent : Int) : Quotient :=
  Quotient.scale ⟨mantissa, 1⟩ 2 exponent

/-- The characters of a number with `precision` significant digits, of which there is at least
one. -/
def general (precision : Nat) : Number → List Char
  | .nan => ['n', 'a', 'n']
  | .infinite negative => if negative then ['-', 'i', 'n', 'f'] else ['i', 'n', 'f']
  | .finite negative mantissa exponent =>
    let precision := max precision 1
    let body :=
      if mantissa = 0 then ['0']
      else
        let (digits, place) := significant precision (binaryQuotient mantissa exponent)
        digitsText precision digits place
    if negative then '-' :: body else body

end RecordStore.Decimal
