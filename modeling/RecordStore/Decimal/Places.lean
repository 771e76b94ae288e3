import RecordStore.Decimal.General

/-!
# Numbers with a given count of decimal places

The scientific form of a number is rounded to its significant digits. The form with the point in
place can be rounded on its own, to as many places behind the point as the significant digits
leave there. Zeros that end the fraction are dropped from the text of either form.

## Main definitions

* `Quotient.scientific`, `Quotient.fixed` — the two forms with all their digits.
* `trimFraction` — a text without the zeros that end its fraction.
* `twiceRounded` — the characters of a number, of which each form is rounded by itself.
-/

namespace RecordStore.Decimal

/-- The scientific form of a quotient with `places` digits behind the point: one digit before it,
and the decimal exponent of this digit. -/
def Quotient.scientific (q : Quotient) (places : Nat) : List Char × Int :=
  let (digits, exponent) := significant (places + 1) q
  let chars := Digits.chars (places + 1) digits
  (if places = 0 then chars else chars.take 1 ++ '.' :: chars.drop 1, exponent)

def Quotient.fixed (q : Quotient) (places : Nat) : List Char :=
  let digits := (q.scale 10 places).roundHalfEven
  let whole := Nat.toDigits 10 (digits / Nat.pow 10 places)
  if places = 0 then whole else whole ++ '.' :: Digits.chars places digits

/-- Drops the zeros behind a point that end a text, and a point that is left at its end. -/
def trimFraction (text : List Char) : List Char :=
  if text.contains '.' then
    ((text.reverse.dropWhile (· = '0')).dropWhile (· = '.')).reverse
  else text

/-- The characters of a number with `precision` significant digits, of which there is at least
one. The scientific form says which form is written. -/
def twiceRounded (precision : Nat) : Number → List Char
  | .nan => ['n', 'a', 'n']
  | .infinite negative => if negative then ['-', 'i', 'n', 'f'] else ['i', 'n', 'f']
  | .finite negative mantissa exponent =>
    let precision := max precision 1
    let q := binaryQuotient mantissa exponent
    let body :=
      if mantissa = 0 then ['0']
      else
        let (chars, place) := q.scientific (precision - 1)
        if place < minPointedExponent || (precision : Int) ≤ place then
          trimFraction chars ++ exponentText place
        else trimFraction (q.fixed (precision - 1 - place).toNat)
    if negative then '-' :: body else body

end RecordStore.Decimal
