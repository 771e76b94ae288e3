import Mathlib.Tactic.FieldSimp
import Mathlib.Tactic.Ring
import RecordStore.Decimal.Binary
import RecordStore.Proofs.Quotients

/-!
# Numbers of a binary format

A bit pattern that is finite is a mantissa and an exponent in one way. A quotient that is nearer to
such a number than a quarter of its last place is rounded to the bits of the number, also where the
quotient is below the power of two that the number is.

## Main definitions

* `BinaryFormat.Fits` — the mantissas and exponents of a format.
* `BinaryFormat.magnitude` — their bits.
* `BinaryFormat.Near` — the quotients that are near a number.
* `finiteValue` — the number that a mantissa and an exponent stand for.

## Main statements

* `BinaryFormat.decode_cases` — what a bit pattern is decoded to.
* `BinaryFormat.nearest_eq` — what is near a number is rounded to its bits.
-/

namespace RecordStore.Decimal

def finiteValue (mantissa : ℕ) (exponent : ℤ) : ℚ := mantissa * (2 : ℚ) ^ exponent

theorem finiteValue_pos {mantissa : ℕ} (h : 0 < mantissa) (exponent : ℤ) :
    0 < finiteValue mantissa exponent := by
  unfold finiteValue
  positivity

namespace BinaryFormat

variable {f : BinaryFormat} {mantissa : ℕ} {exponent : ℤ}

theorem fractions_pos (f : BinaryFormat) : 0 < f.fractions := by
  rw [f.fractions_eq]
  exact Nat.two_pow_pos _

/-- How the format takes its finite numbers apart: the mantissa is as long as the format allows,
unless the exponent is the least one. -/
structure Fits (f : BinaryFormat) (mantissa : ℕ) (exponent : ℤ) : Prop where
  minExponent_le : f.minExponent ≤ exponent
  lt : mantissa < 2 * f.fractions
  normal : f.minExponent < exponent → f.fractions ≤ mantissa

/-- The bits of a finite number without its sign. -/
def magnitude (f : BinaryFormat) (mantissa : ℕ) (exponent : ℤ) : ℕ :=
  (exponent - f.minExponent).toNat * f.fractions + mantissa

def signBits (f : BinaryFormat) (negative : Bool) : ℕ := if negative then f.signBit else 0

/-- The bits of a NaN, of an infinity and of a finite number. -/
theorem decode_cases {bits : ℕ} (h : bits < 2 * f.signBit) :
    ∃ negative, f.decode bits = .nan ∨
      (f.decode bits = .infinite negative ∧ bits = f.signBits negative + f.infinity) ∨
      ∃ mantissa exponent, f.decode bits = .finite negative mantissa exponent ∧
        f.Fits mantissa exponent ∧ f.magnitude mantissa exponent < f.infinity ∧
        bits = f.signBits negative + f.magnitude mantissa exponent := by
  have hpos := f.fractions_pos
  have hsign : 0 < f.signBit := by
    rw [signBit]
    omega
  have hbits : bits = f.signBits (f.signBit ≤ bits) + bits % f.signBit := by
    have hdiv := Nat.div_add_mod bits f.signBit
    by_cases hle : f.signBit ≤ bits
    · have : bits / f.signBit = 1 := Nat.div_eq_of_lt_le (by omega) (by omega)
      simp only [this] at hdiv
      simp [signBits, hle]
      omega
    · simp [signBits, hle, Nat.mod_eq_of_lt (not_le.1 hle)]
  refine ⟨f.signBit ≤ bits, ?_⟩
  generalize hm : bits % f.signBit = m at hbits
  simp only [decode, hm]
  split
  · exact .inl rfl
  · rename_i hnan
    split
    · rename_i hinf
      exact .inr (.inl ⟨rfl, by rw [← hinf, ← hbits]⟩)
    · rename_i hinf
      have hsplit := Nat.div_add_mod m f.fractions
      have hmod := Nat.mod_lt m hpos
      refine .inr (.inr ?_)
      split
      · rename_i hfield
        rw [hfield] at hsplit
        have hmag : f.magnitude (m % f.fractions) f.minExponent = m := by
          simp [magnitude]
          omega
        refine ⟨_, _, rfl, ⟨le_rfl, by omega, fun hlt => absurd hlt (lt_irrefl _)⟩, ?_, ?_⟩
        · rw [hmag]
          omega
        · rw [hmag, ← hbits]
      · rename_i hfield
        have hmag : f.magnitude (f.fractions + m % f.fractions)
            (f.minExponent + (m / f.fractions - 1 : ℕ)) = m := by
          obtain ⟨k, hk⟩ := Nat.exists_eq_succ_of_ne_zero hfield
          rw [hk, Nat.mul_succ, Nat.mul_comm] at hsplit
          simp [magnitude, hk]
          omega
        refine ⟨_, _, rfl, ⟨by omega, by omega, fun _ => by omega⟩, ?_, ?_⟩
        · rw [hmag]
          omega
        · rw [hmag, ← hbits]

theorem Fits.exponent_eq (h : f.Fits 0 exponent) : exponent = f.minExponent := by
  have := f.fractions_pos
  have := h.minExponent_le
  have := h.normal
  omega

theorem magnitude_zero (f : BinaryFormat) : f.magnitude 0 f.minExponent = 0 := by
  simp [magnitude]

/-! ## The nearest number -/

theorem two_zpow_fractionBits (f : BinaryFormat) :
    (2 : ℚ) ^ (f.fractionBits : ℤ) = f.fractions := by
  rw [zpow_natCast, f.fractions_eq, Nat.pow_eq]
  norm_cast

/-- A quotient that is rounded to a mantissa at an exponent has the bits of both. -/
theorem nearest_of_floorLog {q : Quotient} (hq : 0 < q.toRat)
    (hlog : max f.minExponent (q.floorLog 2 - f.fractionBits) = exponent)
    (hclose : |q.toRat - finiteValue mantissa exponent| < (2 : ℚ) ^ exponent / 2) :
    f.nearest q = min f.infinity (f.magnitude mantissa exponent) := by
  have hunit : (0 : ℚ) < (2 : ℚ) ^ exponent := by positivity
  have hround : (q.scale 2 (-exponent)).roundHalfEven = mantissa := by
    apply Quotient.roundHalfEven_eq
      (Quotient.den_scale_pos (by omega) (Quotient.den_pos_of_toRat_pos hq) _)
    have hscaled : (q.scale 2 (-exponent)).toRat - mantissa =
        (q.toRat - finiteValue mantissa exponent) / (2 : ℚ) ^ exponent := by
      rw [Quotient.toRat_scale, finiteValue, zpow_neg, Nat.cast_ofNat]
      field_simp
    rw [hscaled, abs_div, abs_of_pos hunit, div_lt_iff₀ hunit]
    linarith
  rw [nearest, if_neg (Quotient.num_pos_of_toRat_pos hq).ne', hlog]
  simp only [hround, magnitude]

/-- Whether a quotient is nearer to a number than a quarter of the last place that a mantissa of
full length has there. -/
def Near (f : BinaryFormat) (q : Quotient) (mantissa : ℕ) (exponent : ℤ) : Prop :=
  |q.toRat - finiteValue mantissa exponent| * (4 * f.fractions) < finiteValue mantissa exponent

section

variable {q : Quotient}

theorem Near.mantissa_pos (h : f.Near q mantissa exponent) : 0 < mantissa := by
  rw [Nat.pos_iff_ne_zero]
  rintro rfl
  have : 0 ≤ |q.toRat - finiteValue 0 exponent| * (4 * f.fractions) := by positivity
  simp only [Near, finiteValue, Nat.cast_zero, zero_mul] at h this
  linarith

/-- A quotient near a number is less than half a unit away, and less than a quarter of it. -/
theorem Near.bounds (h : f.Near q mantissa exponent) (hlt : mantissa < 2 * f.fractions) :
    |q.toRat - finiteValue mantissa exponent| < (2 : ℚ) ^ exponent / 2 ∧
      |q.toRat - finiteValue mantissa exponent| < finiteValue mantissa exponent / 4 := by
  have hF : (1 : ℚ) ≤ f.fractions := by exact_mod_cast f.fractions_pos
  have hM : (mantissa : ℚ) < 2 * f.fractions := by exact_mod_cast hlt
  have hunit : (0 : ℚ) < (2 : ℚ) ^ exponent := by positivity
  have hgap := abs_nonneg (q.toRat - finiteValue mantissa exponent)
  unfold Near at h
  generalize |q.toRat - finiteValue mantissa exponent| = gap at *
  constructor
  · rw [finiteValue] at h
    have : gap * (4 * f.fractions) < (2 : ℚ) ^ exponent / 2 * (4 * f.fractions) :=
      calc gap * (4 * f.fractions) < mantissa * (2 : ℚ) ^ exponent := h
        _ < 2 * f.fractions * (2 : ℚ) ^ exponent := by gcongr
        _ = (2 : ℚ) ^ exponent / 2 * (4 * f.fractions) := by ring
    exact lt_of_mul_lt_mul_right this (by positivity)
  · have : gap * 4 ≤ gap * (4 * f.fractions) := by
      gcongr
      linarith
    linarith

theorem Near.toRat_pos (h : f.Near q mantissa exponent) (hlt : mantissa < 2 * f.fractions) :
    0 < q.toRat := by
  have := (abs_lt.1 (h.bounds hlt).2).1
  have := finiteValue_pos h.mantissa_pos exponent
  linarith

/-- A quotient near a number is below the power of two that is above the number. -/
theorem Near.floorLog_le (h : f.Near q mantissa exponent) (hlt : mantissa < 2 * f.fractions) :
    q.floorLog 2 ≤ f.fractionBits + exponent := by
  have hM : (mantissa : ℚ) + 1 ≤ 2 * f.fractions := by exact_mod_cast hlt
  have hbelow := (Quotient.zpow_floorLog le_rfl (h.toRat_pos hlt)).1
  have habove : q.toRat < (2 : ℚ) ^ (f.fractionBits + exponent + 1 : ℤ) :=
    calc q.toRat
        < finiteValue mantissa exponent + (2 : ℚ) ^ exponent := by
          have := (abs_lt.1 (h.bounds hlt).1).2
          have : (0 : ℚ) < (2 : ℚ) ^ exponent := by positivity
          linarith
      _ = (mantissa + 1) * (2 : ℚ) ^ exponent := by rw [finiteValue, add_one_mul]
      _ ≤ 2 * f.fractions * (2 : ℚ) ^ exponent := by gcongr
      _ = (2 : ℚ) ^ (f.fractionBits + exponent + 1 : ℤ) := by
          rw [zpow_add₀ two_ne_zero, zpow_add₀ two_ne_zero, f.two_zpow_fractionBits, zpow_one]
          ring
  have := (zpow_lt_zpow_iff_right₀ one_lt_two).1 (hbelow.trans_lt habove)
  omega

/-- A quotient near a number of full length is below the power of two that its last place is taken
from only if the number is this power. -/
theorem Near.eq_of_floorLog_lt (h : f.Near q mantissa exponent) (hlt : mantissa < 2 * f.fractions)
    (hnormal : f.fractions ≤ mantissa) (hlog : q.floorLog 2 < f.fractionBits + exponent) :
    mantissa = f.fractions ∧ q.floorLog 2 = f.fractionBits + exponent - 1 := by
  have habove := (Quotient.zpow_floorLog le_rfl (h.toRat_pos hlt)).2
  have hunit : (0 : ℚ) < (2 : ℚ) ^ exponent := by positivity
  obtain ⟨hunits, hquarter⟩ := h.bounds hlt
  have hmantissa : mantissa = f.fractions := by
    by_contra hne
    have hM : (f.fractions : ℚ) + 1 ≤ mantissa := by exact_mod_cast (by omega)
    have hbelow : (2 : ℚ) ^ (f.fractionBits + exponent : ℤ) < q.toRat :=
      calc (2 : ℚ) ^ (f.fractionBits + exponent : ℤ)
          = (f.fractions + 1) * (2 : ℚ) ^ exponent - (2 : ℚ) ^ exponent := by
            rw [zpow_add₀ two_ne_zero, f.two_zpow_fractionBits]
            ring
        _ ≤ finiteValue mantissa exponent - (2 : ℚ) ^ exponent := by
            rw [finiteValue]
            gcongr
        _ < q.toRat := by
            have := (abs_lt.1 hunits).1
            linarith
    have := (zpow_lt_zpow_iff_right₀ one_lt_two).1 (hbelow.trans habove)
    omega
  have hbelow : (2 : ℚ) ^ (f.fractionBits + exponent - 1 : ℤ) < q.toRat :=
    calc (2 : ℚ) ^ (f.fractionBits + exponent - 1 : ℤ)
        = finiteValue mantissa exponent / 2 := by
          rw [zpow_sub₀ two_ne_zero, zpow_add₀ two_ne_zero, f.two_zpow_fractionBits, zpow_one,
            finiteValue, hmantissa]
      _ < q.toRat := by
          have := (abs_lt.1 hquarter).1
          have := finiteValue_pos h.mantissa_pos exponent
          linarith
  have := (zpow_lt_zpow_iff_right₀ one_lt_two).1 (hbelow.trans habove)
  exact ⟨hmantissa, by omega⟩

/-- A carry out of the fraction moves into the exponent. -/
theorem finiteValue_carry (mantissa : ℕ) (exponent : ℤ) :
    finiteValue (2 * mantissa) (exponent - 1) = finiteValue mantissa exponent := by
  rw [finiteValue, finiteValue, zpow_sub₀ two_ne_zero, zpow_one, Nat.cast_mul, Nat.cast_ofNat]
  ring

theorem magnitude_carry (h : f.minExponent < exponent) :
    f.magnitude (2 * f.fractions) (exponent - 1) = f.magnitude f.fractions exponent := by
  obtain ⟨k, rfl⟩ : ∃ k : ℕ, exponent = f.minExponent + (k + 1 : ℕ) :=
    ⟨(exponent - f.minExponent - 1).toNat, by omega⟩
  have hk : (f.minExponent + (k + 1 : ℕ) - 1 - f.minExponent).toNat = k := by omega
  rw [magnitude, magnitude, hk, add_sub_cancel_left, Int.toNat_natCast]
  ring

/-- A quotient near a number is rounded to the bits of the number. -/
theorem nearest_eq (hfits : f.Fits mantissa exponent) (h : f.Near q mantissa exponent)
    (hmag : f.magnitude mantissa exponent < f.infinity) :
    f.nearest q = f.magnitude mantissa exponent := by
  have hq := h.toRat_pos hfits.lt
  have hmin := hfits.minExponent_le
  have hle := h.floorLog_le hfits.lt
  by_cases hlog : max f.minExponent (q.floorLog 2 - f.fractionBits) = exponent
  · rw [nearest_of_floorLog hq hlog (h.bounds hfits.lt).1, min_eq_right hmag.le]
  · -- the number is a power of two, and the quotient is below it
    have hnormal := hfits.normal (by omega)
    obtain ⟨rfl, hlog'⟩ := h.eq_of_floorLog_lt hfits.lt hnormal (by omega)
    have hclose : |q.toRat - finiteValue (2 * f.fractions) (exponent - 1)| <
        (2 : ℚ) ^ (exponent - 1) / 2 := by
      have hF : (0 : ℚ) < f.fractions := by exact_mod_cast f.fractions_pos
      rw [finiteValue_carry]
      refine lt_of_mul_lt_mul_right (h.trans_eq ?_) (by positivity : (0 : ℚ) ≤ 4 * f.fractions)
      rw [finiteValue, zpow_sub₀ two_ne_zero, zpow_one]
      ring
    rw [nearest_of_floorLog hq (by omega) hclose, magnitude_carry (by omega),
      min_eq_right hmag.le]

end

end BinaryFormat

end RecordStore.Decimal
