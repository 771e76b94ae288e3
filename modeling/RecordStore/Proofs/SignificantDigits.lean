import RecordStore.Decimal.General
import RecordStore.Proofs.BinaryFormats

/-!
# Numbers from their significant digits

With nine decimal digits for the short format and seventeen for the long one, the rounded decimal
is so near to the binary number that reading it gives the number back.

## Main definitions

* `decimalValue` — the number that digits and a decimal exponent stand for.
* `BinaryFormat.Suits` — the counts of digits that tell the numbers of a format apart.

## Main statements

* `abs_sub_significant_le` — how far the rounded decimal is off.
* `BinaryFormat.ofDecimal_significant` — a number is read back from its digits.
-/

namespace RecordStore.Decimal

def decimalValue (digits : ℕ) (exponent : ℤ) : ℚ := digits * (10 : ℚ) ^ exponent

theorem toRat_scale_ten (digits : ℕ) (exponent : ℤ) :
    (Quotient.scale ⟨digits, 1⟩ 10 exponent).toRat = decimalValue digits exponent := by
  rw [Quotient.toRat_scale, Quotient.toRat_natCast, decimalValue, Nat.cast_ofNat]

theorem toRat_binaryQuotient (mantissa : ℕ) (exponent : ℤ) :
    (binaryQuotient mantissa exponent).toRat = finiteValue mantissa exponent := by
  rw [binaryQuotient, Quotient.toRat_scale, Quotient.toRat_natCast, finiteValue, Nat.cast_ofNat]

theorem decimalValue_mul_pow (digits zeros : ℕ) (exponent : ℤ) :
    decimalValue (digits * 10 ^ zeros) exponent = decimalValue digits (exponent + zeros) := by
  rw [decimalValue, decimalValue, zpow_add₀ (by norm_num), zpow_natCast]
  push_cast
  ring

/-! ## Rounding to digits -/

section

variable {precision : ℕ} {q : Quotient}

theorem zpow_floorLog_ten (hq : 0 < q.toRat) :
    (10 : ℚ) ^ q.floorLog 10 ≤ q.toRat ∧ q.toRat < (10 : ℚ) ^ (q.floorLog 10 + 1) := by
  have h := Quotient.zpow_floorLog (by omega : 2 ≤ 10) hq
  rwa [Nat.cast_ofNat] at h

/-- Before a carry, the digits are those of the quotient moved behind the precision. -/
theorem significant_cases (precision : ℕ) (q : Quotient) :
    ∃ digits, digits = (q.scale 10 (precision - 1 - q.floorLog 10)).roundHalfEven ∧
      ((digits = 10 ^ precision ∧
          significant precision q = (10 ^ (precision - 1), q.floorLog 10 + 1)) ∨
        (digits ≠ 10 ^ precision ∧ significant precision q = (digits, q.floorLog 10))) := by
  refine ⟨_, rfl, ?_⟩
  simp only [significant, Nat.pow_eq]
  split
  · rename_i h
    exact .inl ⟨h, rfl⟩
  · rename_i h
    exact .inr ⟨h, rfl⟩

/-- The quotient moved behind the precision, and the number that it is rounded to. -/
theorem scaled_bounds (hp : 0 < precision) (hq : 0 < q.toRat) :
    let scaled := q.scale 10 (precision - 1 - q.floorLog 10)
    10 ^ (precision - 1) ≤ scaled.roundHalfEven ∧ scaled.roundHalfEven ≤ 10 ^ precision ∧
      |scaled.toRat - scaled.roundHalfEven| ≤ 1 / 2 := by
  intro scaled
  have hround := Quotient.abs_sub_roundHalfEven_le
    (Quotient.den_scale_pos (by omega : 0 < 10) (Quotient.den_pos_of_toRat_pos hq)
      (precision - 1 - q.floorLog 10))
  obtain ⟨hlow, hhigh⟩ := zpow_floorLog_ten hq
  have hvalue : scaled.toRat = q.toRat * (10 : ℚ) ^ (precision - 1 - q.floorLog 10 : ℤ) := by
    rw [Quotient.toRat_scale, Nat.cast_ofNat]
  have hmove (e : ℤ) : (10 : ℚ) ^ (e + q.floorLog 10) *
      (10 : ℚ) ^ (precision - 1 - q.floorLog 10 : ℤ) = (10 : ℚ) ^ (e + precision - 1 : ℤ) := by
    rw [← zpow_add₀ (by norm_num)]
    congr 1
    ring
  have hlow' : (10 : ℚ) ^ (precision - 1) ≤ scaled.toRat := by
    calc (10 : ℚ) ^ (precision - 1)
        = (10 : ℚ) ^ (0 + precision - 1 : ℤ) := by
          rw [← zpow_natCast, Nat.cast_sub hp]
          simp
      _ ≤ scaled.toRat := by
          rw [← hmove, hvalue, zero_add]
          gcongr
  have hhigh' : scaled.toRat < (10 : ℚ) ^ precision := by
    calc scaled.toRat
        < (10 : ℚ) ^ (1 + precision - 1 : ℤ) := by
          rw [← hmove, hvalue, add_comm]
          gcongr
      _ = (10 : ℚ) ^ precision := by rw [← zpow_natCast, add_sub_cancel_left]
  obtain ⟨hleft, hright⟩ := abs_le.1 hround
  refine ⟨?_, ?_, hround⟩
  · by_contra hlt
    have : (scaled.roundHalfEven : ℚ) + 1 ≤ (10 : ℚ) ^ (precision - 1) := by
      exact_mod_cast not_le.1 hlt
    linarith
  · by_contra hlt
    have : (10 : ℚ) ^ precision + 1 ≤ (scaled.roundHalfEven : ℚ) := by
      exact_mod_cast not_le.1 hlt
    linarith

/-- There are exactly as many digits as the precision says. -/
theorem significant_bounds (hp : 0 < precision) (hq : 0 < q.toRat) :
    10 ^ (precision - 1) ≤ (significant precision q).1 ∧
      (significant precision q).1 < 10 ^ precision := by
  obtain ⟨hlow, hhigh, -⟩ := scaled_bounds hp hq
  obtain ⟨digits, rfl, ⟨-, hs⟩ | ⟨hne, hs⟩⟩ := significant_cases precision q
  · rw [hs]
    exact ⟨le_rfl, Nat.pow_lt_pow_right (by omega) (by omega)⟩
  · rw [hs]
    exact ⟨hlow, lt_of_le_of_ne hhigh hne⟩

/-- A carry into a further digit moves into the exponent. -/
theorem decimalValue_significant (hp : 0 < precision) (q : Quotient) :
    decimalValue (significant precision q).1 ((significant precision q).2 + 1 - precision) =
      decimalValue (q.scale 10 (precision - 1 - q.floorLog 10)).roundHalfEven
        (q.floorLog 10 + 1 - precision) := by
  obtain ⟨digits, rfl, ⟨hcarry, hs⟩ | ⟨-, hs⟩⟩ := significant_cases precision q
  · rw [hs, hcarry]
    obtain ⟨n, rfl⟩ : ∃ n, precision = n + 1 := ⟨precision - 1, by omega⟩
    rw [Nat.add_sub_cancel, ← Nat.one_mul (10 ^ n), ← Nat.one_mul (10 ^ (n + 1)),
      decimalValue_mul_pow, decimalValue_mul_pow]
    congr 1
    push_cast
    ring
  · rw [hs]

/-- The rounded decimal is off by half a unit of its last digit at most. -/
theorem abs_sub_significant_le (hp : 0 < precision) (hq : 0 < q.toRat) :
    |q.toRat - decimalValue (significant precision q).1
        ((significant precision q).2 + 1 - precision)| * (2 * 10 ^ (precision - 1)) ≤ q.toRat := by
  obtain ⟨-, -, hround⟩ := scaled_bounds hp hq
  have hlow := (zpow_floorLog_ten hq).1
  rw [decimalValue_significant hp]
  set scaled := q.scale 10 (precision - 1 - q.floorLog 10) with hscaled
  have hunit : (0 : ℚ) < (10 : ℚ) ^ (q.floorLog 10 + 1 - precision : ℤ) := by positivity
  have hback : q.toRat = scaled.toRat * (10 : ℚ) ^ (q.floorLog 10 + 1 - precision : ℤ) := by
    rw [hscaled, Quotient.toRat_scale, Nat.cast_ofNat, mul_assoc, ← zpow_add₀ (by norm_num),
      show (precision - 1 - q.floorLog 10 + (q.floorLog 10 + 1 - precision) : ℤ) = 0 by ring,
      zpow_zero, mul_one]
  have hgap : |q.toRat - decimalValue scaled.roundHalfEven (q.floorLog 10 + 1 - precision)| =
      |scaled.toRat - scaled.roundHalfEven| * (10 : ℚ) ^ (q.floorLog 10 + 1 - precision : ℤ) := by
    rw [hback, decimalValue, ← sub_mul, abs_mul, abs_of_pos hunit]
  have hpower : (10 : ℚ) ^ (q.floorLog 10 + 1 - precision : ℤ) * 10 ^ (precision - 1) =
      (10 : ℚ) ^ q.floorLog 10 := by
    rw [← zpow_natCast, Nat.cast_sub hp, ← zpow_add₀ (by norm_num)]
    congr 1
    push_cast
    ring
  calc |q.toRat - decimalValue scaled.roundHalfEven (q.floorLog 10 + 1 - precision)| *
        (2 * 10 ^ (precision - 1))
      = |scaled.toRat - scaled.roundHalfEven| * 2 * (10 : ℚ) ^ q.floorLog 10 := by
        rw [hgap, ← hpower]
        ring
    _ ≤ 1 / 2 * 2 * (10 : ℚ) ^ q.floorLog 10 := by gcongr
    _ ≤ q.toRat := by linarith

end

/-! ## Reading digits -/

namespace BinaryFormat

variable {f : BinaryFormat} {precision mantissa : ℕ} {exponent : ℤ}

/-- Whether that many digits tell the numbers of a format apart, and no number is farther from one
than the decades that are read. -/
structure Suits (f : BinaryFormat) (precision : ℕ) : Prop where
  fractions_lt : 2 * f.fractions < 10 ^ (precision - 1)
  le_least : (10 : ℚ) ^ (1 - maxDecade : ℤ) ≤ (2 : ℚ) ^ f.minExponent
  greatest_le : 2 * f.fractions * (2 : ℚ) ^ (f.minExponent + (f.infinity / f.fractions : ℕ)) ≤
    (10 : ℚ) ^ (maxDecade - 1 : ℤ)

theorem Suits.precision_pos (h : f.Suits precision) : 0 < precision := by
  rw [Nat.pos_iff_ne_zero]
  rintro rfl
  have := h.fractions_lt
  have := f.fractions_pos
  simp at *
  omega

theorem le_two_zpow {n m : ℕ} (h : 2 ^ n ≤ 10 ^ m) : (10 : ℚ) ^ (-m : ℤ) ≤ (2 : ℚ) ^ (-n : ℤ) := by
  rw [zpow_neg, zpow_neg, zpow_natCast, zpow_natCast]
  have h : (2 : ℚ) ^ n ≤ (10 : ℚ) ^ m := by exact_mod_cast h
  gcongr

theorem single_suits : single.Suits 9 where
  fractions_lt := by decide
  le_least := le_two_zpow (by decide +kernel : 2 ^ 149 ≤ 10 ^ 399)
  greatest_le := by
    have h : 2 * 0x800000 * 2 ^ 106 ≤ 10 ^ 399 := by decide +kernel
    show (2 * (0x800000 : ℕ) * (2 : ℚ) ^ (106 : ℤ)) ≤ (10 : ℚ) ^ (399 : ℤ)
    exact_mod_cast h

theorem double_suits : double.Suits 17 where
  fractions_lt := by decide
  le_least := le_two_zpow (by decide +kernel : 2 ^ 1074 ≤ 10 ^ 399)
  greatest_le := by
    have h : 2 * 0x10000000000000 * 2 ^ 973 ≤ 10 ^ 399 := by decide +kernel
    show (2 * (0x10000000000000 : ℕ) * (2 : ℚ) ^ (973 : ℤ)) ≤ (10 : ℚ) ^ (399 : ℤ)
    exact_mod_cast h

/-- A decimal is less than the power of ten that is above the place of its first digit. -/
theorem decimalValue_lt_of_wholeLog {digits : ℕ} {exponent place : ℤ}
    (h : exponent + (wholeLog 10 digits : ℤ) < place) :
    decimalValue digits exponent < (10 : ℚ) ^ place := by
  have hlog := Quotient.lt_zpow_wholeLog_succ (by omega : 2 ≤ 10) digits
  rw [Nat.cast_ofNat] at hlog
  calc decimalValue digits exponent
      < (10 : ℚ) ^ (wholeLog 10 digits + 1 : ℤ) * (10 : ℚ) ^ exponent := by
        rw [decimalValue]
        gcongr
    _ = (10 : ℚ) ^ (wholeLog 10 digits + 1 + exponent : ℤ) := by
        rw [zpow_add₀ (by norm_num) _ exponent]
    _ ≤ (10 : ℚ) ^ place := zpow_le_zpow_right₀ (by norm_num) (by omega)

theorem ofDecimal_eq_nearest {digits : ℕ}
    (hlow : (10 : ℚ) ^ (-maxDecade : ℤ) < decimalValue digits exponent)
    (hhigh : decimalValue digits exponent < (10 : ℚ) ^ (maxDecade : ℤ)) :
    f.ofDecimal digits exponent = f.nearest (Quotient.scale ⟨digits, 1⟩ 10 exponent) := by
  have hten : (0 : ℚ) < (10 : ℚ) ^ exponent := by positivity
  have hdigits : 0 < digits := by
    rw [Nat.pos_iff_ne_zero]
    rintro rfl
    have : (0 : ℚ) < (10 : ℚ) ^ (-maxDecade : ℤ) := by positivity
    rw [decimalValue, Nat.cast_zero, zero_mul] at hlow
    linarith
  have hone : (1 : ℚ) ≤ digits := by exact_mod_cast hdigits
  have habove : ¬(maxDecade : ℤ) < exponent := by
    intro hlt
    have : (10 : ℚ) ^ (maxDecade : ℤ) < (10 : ℚ) ^ exponent :=
      zpow_lt_zpow_right₀ (by norm_num) hlt
    rw [decimalValue] at hhigh
    nlinarith
  have hbelow : ¬exponent + (wholeLog 10 digits : ℤ) < -(maxDecade : ℤ) := by
    intro hlt
    have : decimalValue digits exponent < (10 : ℚ) ^ (-maxDecade : ℤ) :=
      decimalValue_lt_of_wholeLog hlt
    linarith
  rw [ofDecimal, if_neg hdigits.ne', if_neg habove, if_neg (by simp [hbelow])]

/-- Finite numbers other than zero lie between the least and the greatest one. -/
theorem finiteValue_bounds (hfits : f.Fits mantissa exponent) (hpos : 0 < mantissa)
    (hmag : f.magnitude mantissa exponent < f.infinity) :
    (2 : ℚ) ^ f.minExponent ≤ finiteValue mantissa exponent ∧
      finiteValue mantissa exponent ≤
        2 * f.fractions * (2 : ℚ) ^ (f.minExponent + (f.infinity / f.fractions : ℕ)) := by
  have hone : (1 : ℚ) ≤ mantissa := by exact_mod_cast hpos
  have hM : (mantissa : ℚ) ≤ 2 * f.fractions := by exact_mod_cast hfits.lt.le
  have hmin := hfits.minExponent_le
  have hexp : (exponent - f.minExponent).toNat ≤ f.infinity / f.fractions := by
    rw [Nat.le_div_iff_mul_le f.fractions_pos]
    rw [magnitude] at hmag
    omega
  constructor
  · calc (2 : ℚ) ^ f.minExponent ≤ (2 : ℚ) ^ exponent := zpow_le_zpow_right₀ one_le_two hmin
      _ ≤ finiteValue mantissa exponent := by
        rw [finiteValue]
        exact le_mul_of_one_le_left (by positivity) hone
  · rw [finiteValue]
    gcongr
    · exact one_le_two
    · omega

/-- The first digit of a number is not beyond the decades that are read. -/
theorem natAbs_place_le (hs : f.Suits precision) (hfits : f.Fits mantissa exponent)
    (hpos : 0 < mantissa) (hmag : f.magnitude mantissa exponent < f.infinity) :
    (significant precision (binaryQuotient mantissa exponent)).2.natAbs ≤ maxDecade := by
  have hvalue := finiteValue_pos hpos exponent
  obtain ⟨hleast, hgreatest⟩ := finiteValue_bounds hfits hpos hmag
  have hlog := zpow_floorLog_ten (q := binaryQuotient mantissa exponent)
    (by rwa [toRat_binaryQuotient])
  rw [toRat_binaryQuotient] at hlog
  have hone : (1 : ℚ) < 10 := by norm_num
  have hhigh := (zpow_le_zpow_iff_right₀ hone).1 (hlog.1.trans (hgreatest.trans hs.greatest_le))
  have hlow := (zpow_lt_zpow_iff_right₀ hone).1 ((hs.le_least.trans hleast).trans_lt hlog.2)
  obtain ⟨digits, -, ⟨-, hsig⟩ | ⟨-, hsig⟩⟩ :=
    significant_cases precision (binaryQuotient mantissa exponent)
  all_goals
    rw [hsig]
    simp only
    omega

/-- A number is read back from its digits. -/
theorem ofDecimal_significant {digits : ℕ} {place : ℤ} (hs : f.Suits precision)
    (hfits : f.Fits mantissa exponent) (hpos : 0 < mantissa)
    (hmag : f.magnitude mantissa exponent < f.infinity)
    (hdigits : decimalValue digits place =
      decimalValue (significant precision (binaryQuotient mantissa exponent)).1
        ((significant precision (binaryQuotient mantissa exponent)).2 + 1 - precision)) :
    f.ofDecimal digits place = f.magnitude mantissa exponent := by
  have hvalue := finiteValue_pos hpos exponent
  have hgap := abs_sub_significant_le (q := binaryQuotient mantissa exponent) hs.precision_pos
    (by rwa [toRat_binaryQuotient])
  rw [← hdigits, toRat_binaryQuotient] at hgap
  have hF : (4 * f.fractions : ℚ) < 2 * 10 ^ (precision - 1) := by
    have := hs.fractions_lt
    have : (2 * f.fractions : ℚ) < 10 ^ (precision - 1) := by exact_mod_cast this
    linarith
  have hnear : f.Near (Quotient.scale ⟨digits, 1⟩ 10 place) mantissa exponent := by
    rw [Near, toRat_scale_ten, abs_sub_comm]
    rcases (abs_nonneg (finiteValue mantissa exponent - decimalValue digits place)).eq_or_lt
      with hzero | hpos
    · rwa [← hzero, zero_mul]
    · exact (mul_lt_mul_of_pos_left hF hpos).trans_le hgap
  obtain ⟨hleast, hgreatest⟩ := finiteValue_bounds hfits hpos hmag
  have hleast := hs.le_least.trans hleast
  have hgreatest := hgreatest.trans hs.greatest_le
  obtain ⟨hleft, hright⟩ := abs_lt.1 (hnear.bounds hfits.lt).2
  rw [toRat_scale_ten] at hleft hright
  rw [sub_eq_add_neg, zpow_add₀ (by norm_num), zpow_one] at hleast
  rw [sub_eq_add_neg, zpow_add₀ (by norm_num), zpow_neg, zpow_one] at hgreatest
  rw [ofDecimal_eq_nearest (by linarith) (by linarith), nearest_eq hfits hnear hmag]

end BinaryFormat

end RecordStore.Decimal
