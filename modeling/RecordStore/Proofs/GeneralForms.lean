import RecordStore.Proofs.SeparateRoundings

/-!
# The general form of a number

The text of a finite number other than zero stands for the number rounded to its significant
digits. What the rounded number is and which power of ten its first digit stands at are said of
rational numbers alone, and the text is given by its parts.

## Main definitions

* `IsPlace` — the decimal exponent of the first digit of a number.
* `IsRounding` — a number rounded to significant digits, ties to even.
* `Numeral` — a number in digits, without zeros that end its fraction.
* `IsGeneral` — the text of a number in the form that its decimal exponent asks for.

## Main statements

* `isRounding_iff` — the significant digits are those of the rounded number.
* `general_of_finite` — every finite number other than zero is written in its general form.
-/

namespace RecordStore.Decimal

/-! ## Rounding to significant digits -/

/-- Whether the first digit of a positive number has the decimal exponent `place`. -/
def IsPlace (value : ℚ) (place : ℤ) : Prop :=
  (10 : ℚ) ^ place ≤ value ∧ value < (10 : ℚ) ^ (place + 1)

theorem IsPlace.unique {value : ℚ} {place place' : ℤ} (h : IsPlace value place)
    (h' : IsPlace value place') : place = place' := by
  have hone : (1 : ℚ) < 10 := by norm_num
  have h₁ := (zpow_lt_zpow_iff_right₀ hone).1 (h.1.trans_lt h'.2)
  have h₂ := (zpow_lt_zpow_iff_right₀ hone).1 (h'.1.trans_lt h.2)
  omega

/-- Whether a positive number is rounded to so many significant digits as `precision` says. Of the
numbers that have no digits behind these, it is rounded to the nearest one, and of two that are as
near to the one with an even last digit. -/
def IsRounding (precision : ℕ) (value rounded : ℚ) : Prop :=
  ∃ (place : ℤ) (digits : ℕ), IsPlace value place ∧
    rounded = decimalValue digits (place + 1 - precision) ∧
      ∀ other : ℕ,
        |value - rounded| ≤ |value - decimalValue other (place + 1 - precision)| ∧
          (|value - decimalValue other (place + 1 - precision)| = |value - rounded| →
            other = digits ∨ Even digits)

section

variable {precision : ℕ} {q : Quotient}

theorem isPlace_floorLog (hq : 0 < q.toRat) : IsPlace q.toRat (q.floorLog 10) :=
  zpow_floorLog_ten hq

/-- A quotient is rounded to its significant digits, and to nothing else. -/
theorem isRounding_iff (hp : 0 < precision) (hq : 0 < q.toRat) (rounded : ℚ) :
    IsRounding precision q.toRat rounded ↔
      rounded = decimalValue (significant precision q).1
        ((significant precision q).2 + 1 - precision) := by
  rw [decimalValue_significant hp]
  set unit : ℤ := q.floorLog 10 + 1 - precision with hunit
  have hpos : (0 : ℚ) < (10 : ℚ) ^ unit := by positivity
  have hscaled : q.scale 10 (precision - 1 - q.floorLog 10) = q.scale 10 (-unit) := by
    congr 1
    omega
  rw [hscaled]
  -- in units of the last digit, distances are those from whole numbers
  have hdist (n : ℕ) : |q.toRat - decimalValue n unit| =
      |(q.scale 10 (-unit)).toRat - n| * (10 : ℚ) ^ unit := by
    have : q.toRat - decimalValue n unit =
        ((q.scale 10 (-unit)).toRat - n) * (10 : ℚ) ^ unit := by
      rw [Quotient.toRat_scale, Nat.cast_ofNat, decimalValue, sub_mul, mul_assoc, zpow_neg,
        inv_mul_cancel₀ hpos.ne', mul_one]
    rw [this, abs_mul, abs_of_pos hpos]
  have hden := Quotient.den_scale_pos (by omega : 0 < 10) (Quotient.den_pos_of_toRat_pos hq) (-unit)
  have hnearest (n : ℕ) : (∀ other : ℕ,
      |q.toRat - decimalValue n unit| ≤ |q.toRat - decimalValue other unit| ∧
        (|q.toRat - decimalValue other unit| = |q.toRat - decimalValue n unit| →
          other = n ∨ Even n)) ↔ (q.scale 10 (-unit)).roundHalfEven = n := by
    rw [Quotient.roundHalfEven_eq_iff hden]
    simp only [hdist, mul_le_mul_iff_of_pos_right hpos, mul_left_inj' hpos.ne']
  constructor
  · rintro ⟨place, digits, hplace, rfl, hother⟩
    obtain rfl := hplace.unique (isPlace_floorLog hq)
    rw [(hnearest digits).1 hother]
  · rintro rfl
    exact ⟨_, _, isPlace_floorLog hq, rfl, (hnearest _).2 rfl⟩

/-- The first of the significant digits has the decimal exponent that comes with them. -/
theorem isPlace_significant (hp : 0 < precision) (hq : 0 < q.toRat) :
    IsPlace (decimalValue (significant precision q).1
      ((significant precision q).2 + 1 - precision)) (significant precision q).2 := by
  obtain ⟨hlow, hhigh⟩ := significant_bounds hp hq
  have hlow : (10 : ℚ) ^ (precision - 1) ≤ (significant precision q).1 := by exact_mod_cast hlow
  have hhigh : ((significant precision q).1 : ℚ) < (10 : ℚ) ^ precision := by
    exact_mod_cast hhigh
  generalize significant precision q = found at *
  obtain ⟨digits, place⟩ := found
  have hunit : (0 : ℚ) < (10 : ℚ) ^ (place + 1 - precision : ℤ) := by positivity
  have hmove (e : ℕ) : (10 : ℚ) ^ (place + 1 - precision + e : ℤ) =
      (10 : ℚ) ^ e * (10 : ℚ) ^ (place + 1 - precision : ℤ) := by
    rw [zpow_add₀ (by norm_num), zpow_natCast, mul_comm]
  constructor
  · calc (10 : ℚ) ^ place = (10 : ℚ) ^ (place + 1 - precision + (precision - 1 : ℕ) : ℤ) := by
          congr 1
          omega
      _ ≤ decimalValue digits (place + 1 - precision) := by
          rw [hmove, decimalValue]
          gcongr
  · calc decimalValue digits (place + 1 - precision)
        < (10 : ℚ) ^ (place + 1 - precision + precision : ℤ) := by
          rw [hmove, decimalValue]
          gcongr
      _ = (10 : ℚ) ^ (place + 1) := by
          congr 1
          omega

end

/-! ## Numbers in digits -/

/-- The exponent behind the digits of a number: a sign and at least two digits, of which the first
one is not zero if there are more. -/
structure DecimalExponent where
  negative : Bool
  digits : List Char
  isDigit : ∀ c ∈ digits, c.isDigit = true
  two_le : 2 ≤ digits.length
  minimal : 2 < digits.length → 10 ^ (digits.length - 1) ≤ Nat.ofDigitChars 10 digits 0

namespace DecimalExponent

def value (e : DecimalExponent) : ℤ :=
  if e.negative then -(Nat.ofDigitChars 10 e.digits 0 : ℤ) else Nat.ofDigitChars 10 e.digits 0

def chars (e : DecimalExponent) : List Char :=
  'e' :: (if e.negative then '-' else '+') :: e.digits

end DecimalExponent

/-- A number in digits. No zeros end its fraction, and there is no point without a fraction. -/
structure Numeral where
  whole : List Char
  fraction : List Char
  exponent : Option DecimalExponent
  whole_ne : whole ≠ []
  isDigit : ∀ c ∈ whole ++ fraction, c.isDigit = true
  last_ne : fraction.getLast? ≠ some '0'

namespace Numeral

def value (n : Numeral) : ℚ :=
  decimalValue (Nat.ofDigitChars 10 (n.whole ++ n.fraction) 0)
    ((n.exponent.elim 0 DecimalExponent.value) - n.fraction.length)

def chars (n : Numeral) : List Char :=
  n.whole ++ dotted n.fraction ++ n.exponent.elim [] DecimalExponent.chars

/-- The letter of the exponent stands in the text of a number only with an exponent. -/
theorem mem_chars_iff (n : Numeral) : 'e' ∈ n.chars ↔ n.exponent.isSome := by
  have hnot : ∀ c ∈ n.whole ++ n.fraction, 'e' ≠ c := by
    rintro c hc rfl
    exact absurd (n.isDigit _ hc) (by decide)
  have hwhole : 'e' ∉ n.whole := fun hc => hnot _ (List.mem_append_left _ hc) rfl
  have hfraction : 'e' ∉ dotted n.fraction := by
    intro hc
    cases hf : n.fraction with
    | nil => simp [hf, dotted] at hc
    | cons d fraction =>
      rw [hf, dotted, ← hf] at hc
      · rcases List.mem_cons.1 hc with hc | hc
        · exact absurd hc (by decide)
        · exact hnot _ (List.mem_append_right _ hc) rfl
      · simp
  cases he : n.exponent with
  | none => simp [chars, he, hwhole, hfraction]
  | some e => simp [chars, he, DecimalExponent.chars]

end Numeral

/-- An exponent is written with the digits that it needs, and with two at least. -/
theorem exists_decimalExponent (exponent : ℤ) :
    ∃ e : DecimalExponent, e.chars = exponentText exponent ∧ e.value = exponent := by
  obtain ⟨digits, htext, hd, hvalue, htwo, hminimal⟩ := exists_exponentText exponent
  refine ⟨⟨decide (exponent < 0), digits, hd, htwo, hvalue ▸ hminimal⟩, ?_, ?_⟩
  · simp only [DecimalExponent.chars, htext, decide_eq_true_eq]
  · simp only [DecimalExponent.value, hvalue, decide_eq_true_eq]
    split <;> omega

/-- The text of rounded digits is a number in digits, in the form that the exponent of the first one
asks for. -/
theorem exists_numeral {precision digits : ℕ} (place : ℤ) (hp : 0 < precision)
    (hlt : digits < 10 ^ precision) :
    ∃ n : Numeral, n.chars = digitsText precision digits place ∧
      n.value = decimalValue digits (place + 1 - precision) ∧
      n.exponent.map DecimalExponent.value =
        (if IsScientific precision place then some place else none) ∧
      n.whole.length = (if IsScientific precision place then 1 else place.toNat + 1) := by
  obtain ⟨whole, fraction, htext, hlength, hd, hvalue⟩ := exists_digitsText place hp hlt
  obtain ⟨e, hchars, he⟩ := exists_decimalExponent place
  have hne : whole ≠ [] := by
    rw [← List.length_pos_iff, hlength]
    split <;> omega
  have hdigit : ∀ c ∈ whole ++ trimZeros fraction, c.isDigit = true := by
    intro c hc
    rcases List.mem_append.1 hc with hc | hc
    · exact hd c (List.mem_append_left _ hc)
    · exact hd c (List.mem_append_right _ (mem_of_mem_trimZeros hc))
  refine ⟨⟨whole, trimZeros fraction, if IsScientific precision place then some e else none, hne,
    hdigit, getLast?_trimZeros fraction⟩, ?_, ?_, ?_, hlength⟩
  · rw [htext, pointed_eq, ← hchars]
    by_cases hs : IsScientific precision place <;> simp [Numeral.chars, hs]
  · rw [← hvalue, ← decimalValue_trimZeros]
    by_cases hs : IsScientific precision place <;> simp [Numeral.value, hs, he]
  · by_cases hs : IsScientific precision place <;> simp [hs, he]

/-! ## The general form -/

/-- Whether characters are a number with so many significant digits, in the general form. There is
one number that the value is rounded to, and one exponent of its first digit; the number is written
with one digit before the point and this exponent if the exponent is less than minus four or not
less than the precision, and with the point in its place otherwise. -/
def IsGeneral (precision : ℕ) (negative : Bool) (value : ℚ) (chars : List Char) : Prop :=
  ∃ (rounded : ℚ) (place : ℤ) (n : Numeral),
    (∀ r, IsRounding precision value r ↔ r = rounded) ∧ (∀ x, IsPlace rounded x ↔ x = place) ∧
    chars = (if negative then '-' :: n.chars else n.chars) ∧ n.value = rounded ∧
    ('e' ∈ chars ↔ place < -4 ∨ (precision : ℤ) ≤ place) ∧
    n.exponent.map DecimalExponent.value =
      (if place < -4 ∨ (precision : ℤ) ≤ place then some place else none) ∧
    n.whole.length = (if place < -4 ∨ (precision : ℤ) ≤ place then 1 else place.toNat + 1)

/-- A finite number other than zero is written in the general form, with one significant digit at
least. Each of the two forms may be rounded by itself. -/
theorem general_of_finite (precision : ℕ) (negative : Bool) {mantissa : ℕ} (exponent : ℤ)
    (h : 0 < mantissa) :
    twiceRounded precision (.finite negative mantissa exponent) =
        general precision (.finite negative mantissa exponent) ∧
      IsGeneral (max precision 1) negative (finiteValue mantissa exponent)
        (general precision (.finite negative mantissa exponent)) := by
  refine ⟨twiceRounded_eq_general _ _, ?_⟩
  have hp : 0 < max precision 1 := by omega
  have hq : 0 < (binaryQuotient mantissa exponent).toRat := by
    rw [toRat_binaryQuotient]
    exact finiteValue_pos h exponent
  have hround := isRounding_iff hp hq
  have hplace := isPlace_significant hp hq
  have hlt := (significant_bounds hp hq).2
  rw [toRat_binaryQuotient] at hround
  rw [general]
  simp only [h.ne', if_false]
  generalize significant (max precision 1) (binaryQuotient mantissa exponent) = found at *
  obtain ⟨digits, place⟩ := found
  obtain ⟨n, hchars, hvalue, hexponent, hwhole⟩ := exists_numeral place hp hlt
  refine ⟨_, place, n, hround, fun x => ⟨fun hx => hx.unique hplace, ?_⟩, ?_, hvalue, ?_, hexponent,
    hwhole⟩
  · rintro rfl
    exact hplace
  · rw [hchars]
  · have hletter : 'e' ∈ (if negative = true then '-' :: digitsText (max precision 1) digits place
        else digitsText (max precision 1) digits place) ↔ n.exponent.isSome := by
      rw [← n.mem_chars_iff, hchars]
      cases negative <;> simp
    rw [hletter, ← Option.isSome_map (f := DecimalExponent.value), hexponent]
    exact Option.isSome_ite

/-- Half a unit is rounded to the even digit, here with a carry into the next power of ten. -/
theorem general_nine_and_a_half :
    0 < 19 ∧ general 0 (.finite true 19 (-1)) = ['-', '1', 'e', '+', '0', '1'] ∧
      twiceRounded 0 (.finite true 19 (-1)) = general 0 (.finite true 19 (-1)) ∧
      IsGeneral 1 true (finiteValue 19 (-1)) (general 0 (.finite true 19 (-1))) :=
  ⟨by decide, by decide +kernel, general_of_finite 0 true (-1) (by decide)⟩

end RecordStore.Decimal
