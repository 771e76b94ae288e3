import RecordStore.Proofs.RealTexts

/-!
# Real numbers that come back bit for bit

The text of a number depends on the number alone, not on the format that its bits are of. So a
short number may be converted to the long format before it is written. Its nine digits are read
back as its own bits, as the seventeen digits of a long number are read back as those of the
number.

## Main definitions

* `Decimal.Number.Same` — when two numbers are the same.
* `Decimal.BinaryFormat.convert` — the bits of a number in another format.
* `Decimal.BinaryFormat.Includes` — when each number of a format is one of another.

## Main statements

* `Decimal.BinaryFormat.Includes.same_decode_convert` — a number is the same in a format that
  includes its own.
* `Decimal.general_same` — a number has one text.
* `readReal_written` — the text of a number is read back whole, as its own bits.
-/

namespace RecordStore

namespace Decimal

/-! ## Numbers that are the same -/

/-- Whether two numbers are the same, however they are taken apart. -/
def Number.Same : Number → Number → Prop
  | .nan, .nan => True
  | .infinite negative, .infinite negative' => negative = negative'
  | .finite negative mantissa exponent, .finite negative' mantissa' exponent' =>
    negative = negative' ∧ finiteValue mantissa exponent = finiteValue mantissa' exponent'
  | _, _ => False

theorem Number.Same.refl (n : Number) : n.Same n := by
  cases n <;> simp [Number.Same]

theorem finiteValue_eq_zero_iff (mantissa : ℕ) (exponent : ℤ) :
    finiteValue mantissa exponent = 0 ↔ mantissa = 0 := by
  have : (2 : ℚ) ^ exponent ≠ 0 := by positivity
  simp [finiteValue, this]

/-- The significant digits of a quotient are of its rational number. -/
theorem significant_congr (precision : ℕ) {q q' : Quotient} (hq : 0 < q.toRat)
    (h : q.toRat = q'.toRat) : significant precision q = significant precision q' := by
  have hlog := Quotient.floorLog_congr (by omega : 2 ≤ 10) hq h
  have hscale (e : ℤ) : (q.scale 10 e).roundHalfEven = (q'.scale 10 e).roundHalfEven := by
    refine Quotient.roundHalfEven_congr ?_ ?_ ?_
    · exact Quotient.den_scale_pos (by omega) (Quotient.den_pos_of_toRat_pos hq) e
    · exact Quotient.den_scale_pos (by omega) (Quotient.den_pos_of_toRat_pos (h ▸ hq)) e
    · rw [Quotient.toRat_scale, Quotient.toRat_scale, h]
  simp only [significant, hlog, hscale]

theorem general_same (precision : ℕ) {n n' : Number} (h : n.Same n') :
    general precision n = general precision n' := by
  match n, n', h with
  | .nan, .nan, _ => rfl
  | .infinite _, .infinite _, h => rw [show _ = _ from h]
  | .finite negative mantissa exponent, .finite _ mantissa' exponent', ⟨rfl, hvalue⟩ =>
    have hzero : mantissa = 0 ↔ mantissa' = 0 := by
      rw [← finiteValue_eq_zero_iff mantissa exponent, hvalue, finiteValue_eq_zero_iff]
    by_cases hm : mantissa = 0
    · simp only [general, hm, hzero.1 hm, if_true]
    · have hq : 0 < (binaryQuotient mantissa exponent).toRat := by
        rw [toRat_binaryQuotient]
        exact finiteValue_pos (Nat.pos_of_ne_zero hm) exponent
      have hsame : (binaryQuotient mantissa exponent).toRat =
          (binaryQuotient mantissa' exponent').toRat := by
        rwa [toRat_binaryQuotient, toRat_binaryQuotient]
      simp only [general, hm, mt hzero.2 hm, if_false, significant_congr _ hq hsame]

/-! ## Bits of numbers -/

namespace BinaryFormat

variable {f g : BinaryFormat} {mantissa : ℕ} {exponent : ℤ}

/-- The bits of a number, of those nearest to it. -/
def encode (f : BinaryFormat) : Number → ℕ
  | .nan => f.quietNan
  | .infinite negative => f.signBits negative + f.infinity
  | .finite negative mantissa exponent =>
    f.signBits negative + f.nearest (binaryQuotient mantissa exponent)

def convert (f g : BinaryFormat) (bits : ℕ) : ℕ := g.encode (f.decode bits)

/-- The sign stands apart from bits that are not above those of the infinity. -/
theorem decode_signBits (f : BinaryFormat) (negative : Bool) {magnitude : ℕ}
    (h : magnitude ≤ f.infinity) :
    decide (f.signBit ≤ f.signBits negative + magnitude) = negative ∧
      (f.signBits negative + magnitude) % f.signBit = magnitude := by
  have hlt : magnitude < f.signBit := by
    have := f.fractions_pos
    rw [signBit]
    omega
  cases negative with
  | true => simp [signBits, Nat.mod_eq_of_lt hlt]
  | false => simp [signBits, Nat.mod_eq_of_lt hlt, hlt]

theorem decode_infinity (f : BinaryFormat) (negative : Bool) :
    f.decode (f.signBits negative + f.infinity) = .infinite negative := by
  obtain ⟨hsign, hmod⟩ := f.decode_signBits negative le_rfl
  simp only [decode, hmod, hsign, lt_irrefl, if_false, if_true]

/-- The bits of a finite number are those of its mantissa and exponent. -/
theorem decode_magnitude (negative : Bool) (hfits : f.Fits mantissa exponent)
    (h : f.magnitude mantissa exponent < f.infinity) :
    f.decode (f.signBits negative + f.magnitude mantissa exponent) =
      .finite negative mantissa exponent := by
  obtain ⟨hsign, hmod⟩ := f.decode_signBits negative h.le
  have hpos := f.fractions_pos
  have hmin := hfits.minExponent_le
  have hlt := hfits.lt
  simp only [decode, hmod, hsign, if_neg h.not_gt, if_neg h.ne]
  rw [magnitude]
  obtain ⟨k, rfl⟩ : ∃ k : ℕ, exponent = f.minExponent + k :=
    ⟨(exponent - f.minExponent).toNat, by omega⟩
  rw [add_sub_cancel_left, Int.toNat_natCast]
  by_cases hshort : mantissa < f.fractions
  · -- a mantissa that is short has the least exponent
    obtain rfl : k = 0 := by
      by_contra hk
      have := hfits.normal (by omega)
      omega
    simp [Nat.div_eq_of_lt hshort, Nat.mod_eq_of_lt hshort]
  · obtain ⟨fraction, rfl⟩ := Nat.exists_eq_add_of_le (not_lt.1 hshort)
    have hsum : k * f.fractions + (f.fractions + fraction) = fraction + f.fractions * (k + 1) := by
      ring
    have hfield : (fraction + f.fractions * (k + 1)) / f.fractions = k + 1 := by
      rw [Nat.add_mul_div_left _ _ hpos, Nat.div_eq_of_lt (by omega), Nat.zero_add]
    have hfraction : (fraction + f.fractions * (k + 1)) % f.fractions = fraction := by
      rw [Nat.add_mul_mod_self_left, Nat.mod_eq_of_lt (by omega)]
    simp [hsum, hfield, hfraction]

/-! ## Formats that include another -/

/-- Whether a format has the numbers of another one, all with mantissas of full length. -/
structure Includes (g f : BinaryFormat) : Prop where
  fractionBits_le : f.fractionBits ≤ g.fractionBits
  least : g.minExponent + g.fractionBits ≤ f.minExponent
  greatest : (f.minExponent + (f.infinity / f.fractions : ℕ) - g.minExponent + 2) * g.fractions ≤
    g.infinity

theorem double_includes_single : double.Includes single where
  fractionBits_le := by decide
  least := by decide
  greatest := by decide

theorem Includes.infinity_pos (h : g.Includes f) : 0 < g.infinity := by
  have hleast := h.least
  have hunits : (0 : ℤ) < f.minExponent + (f.infinity / f.fractions : ℕ) - g.minExponent + 2 := by
    have := Int.natCast_nonneg (f.infinity / f.fractions)
    linarith [Int.natCast_nonneg g.fractionBits]
  have hpos : (0 : ℤ) < g.fractions := by exact_mod_cast g.fractions_pos
  exact_mod_cast (mul_pos hunits hpos).trans_le h.greatest

/-- Zeros behind the digits of a mantissa move its exponent. -/
theorem finiteValue_mul_pow (mantissa zeros : ℕ) (exponent : ℤ) :
    finiteValue (mantissa * 2 ^ zeros) (exponent - zeros) = finiteValue mantissa exponent := by
  rw [finiteValue, finiteValue, zpow_sub₀ two_ne_zero, zpow_natCast]
  push_cast
  field_simp

/-- A finite number of a format is one of a format that includes it. -/
theorem Includes.exists_fits (h : g.Includes f) (hfits : f.Fits mantissa exponent)
    (hpos : 0 < mantissa) (hmag : f.magnitude mantissa exponent < f.infinity) :
    ∃ mantissa' exponent', g.Fits mantissa' exponent' ∧ 0 < mantissa' ∧
      g.magnitude mantissa' exponent' < g.infinity ∧
      finiteValue mantissa' exponent' = finiteValue mantissa exponent := by
  have hlt := hfits.lt
  have hmin := hfits.minExponent_le
  have hbits := h.fractionBits_le
  have hleast := h.least
  have hhigh : (exponent - f.minExponent).toNat ≤ f.infinity / f.fractions := by
    rw [Nat.le_div_iff_mul_le f.fractions_pos]
    rw [magnitude] at hmag
    omega
  have hlow := pow_wholeLog_le 2 hpos
  have hup := lt_pow_wholeLog_succ le_rfl mantissa
  have hlog : wholeLog 2 mantissa ≤ f.fractionBits := by
    rw [f.fractions_eq, Nat.pow_eq, ← Nat.pow_succ'] at hlt
    exact Nat.lt_succ_iff.1 ((Nat.pow_lt_pow_iff_right (by omega)).1 (hlow.trans_lt hlt))
  -- the mantissa is made as long as the format allows
  obtain ⟨zeros, hzeros⟩ := Nat.exists_eq_add_of_le (hlog.trans hbits)
  have hfull : g.fractions ≤ mantissa * 2 ^ zeros ∧ mantissa * 2 ^ zeros < 2 * g.fractions := by
    rw [g.fractions_eq, Nat.pow_eq, hzeros, Nat.pow_add, ← Nat.mul_assoc, ← Nat.pow_succ']
    exact ⟨Nat.mul_le_mul_right _ hlow, Nat.mul_lt_mul_of_pos_right hup (Nat.two_pow_pos zeros)⟩
  refine ⟨mantissa * 2 ^ zeros, exponent - zeros, ⟨by omega, hfull.2, fun _ => hfull.1⟩,
    by have := g.fractions_pos; omega, ?_, finiteValue_mul_pow mantissa zeros exponent⟩
  have hunits : ((exponent - zeros - g.minExponent).toNat : ℤ) + 2 ≤
      f.minExponent + (f.infinity / f.fractions : ℕ) - g.minExponent + 2 := by omega
  have hgreatest : ((exponent - zeros - g.minExponent).toNat + 2) * g.fractions ≤ g.infinity := by
    have := mul_le_mul_of_nonneg_right hunits (Int.natCast_nonneg g.fractions)
    exact_mod_cast this.trans h.greatest
  rw [magnitude]
  linarith [hfull.2]

/-- A finite number that a format has is the one nearest to itself. -/
theorem nearest_of_finiteValue {q : Quotient} (hfits : f.Fits mantissa exponent)
    (hpos : 0 < mantissa) (hmag : f.magnitude mantissa exponent < f.infinity)
    (hq : q.toRat = finiteValue mantissa exponent) :
    f.nearest q = f.magnitude mantissa exponent := by
  refine nearest_eq hfits ?_ hmag
  rw [Near, hq, sub_self, abs_zero, zero_mul]
  exact finiteValue_pos hpos exponent

/-- A number is the same in a format that includes its own. -/
theorem Includes.same_decode_convert (h : g.Includes f) {bits : ℕ} (hbits : bits < 2 * f.signBit)
    (hnan : f.decode bits ≠ .nan) : (g.decode (f.convert g bits)).Same (f.decode bits) := by
  obtain ⟨negative, hd | ⟨hd, -⟩ | ⟨mantissa, exponent, hd, hfits, hmag, -⟩⟩ := decode_cases hbits
  · exact absurd hd hnan
  · rw [convert, hd, encode, decode_infinity]
    rfl
  · rw [convert, hd, encode]
    rcases Nat.eq_zero_or_pos mantissa with rfl | hpos
    · have hzero : g.nearest (binaryQuotient 0 exponent) = g.magnitude 0 g.minExponent := by
        have hnum : (binaryQuotient 0 exponent).num = 0 := by
          cases exponent <;> simp [binaryQuotient, Quotient.scale]
        rw [nearest, if_pos hnum, magnitude_zero]
      have hfits : g.Fits 0 g.minExponent :=
        ⟨le_rfl, by have := g.fractions_pos; omega, fun hlt => absurd hlt (lt_irrefl _)⟩
      have hinf : g.magnitude 0 g.minExponent < g.infinity := by
        rw [magnitude_zero]
        exact h.infinity_pos
      rw [hzero, decode_magnitude negative hfits hinf]
      exact ⟨rfl, by simp [finiteValue]⟩
    · obtain ⟨mantissa', exponent', hfits', hpos', hmag', hvalue⟩ := h.exists_fits hfits hpos hmag
      rw [nearest_of_finiteValue hfits' hpos' hmag' (by rw [toRat_binaryQuotient, hvalue]),
        decode_magnitude negative hfits' hmag']
      exact ⟨rfl, hvalue⟩

end BinaryFormat

end Decimal

open Decimal Decimal.BinaryFormat

/-! ## Reading back -/

section

variable {format : BinaryFormat} {precision bits : ℕ} {n : Number}

/-- A text that is the one of a number is read back whole, as the bits of the number. -/
theorem readReal_same (code : Char) (hs : format.Suits precision)
    (hbits : bits < 2 * format.signBit) (hnan : format.decode bits ≠ .nan)
    (hn : n.Same (format.decode bits)) :
    ∃ c, readReal code format (Cursor.start (Bytes.ofChars (general precision n))) = .ok bits c ∧
      c.rest = [] := by
  rw [general_same precision hn]
  have hstart : (Cursor.start (Bytes.ofChars (general precision (format.decode bits)))).rest =
      Bytes.ofChars (general precision (format.decode bits)) ++ [] := (List.append_nil _).symm
  obtain ⟨c, hread, hrest⟩ := readReal_general code hs hbits (by simp) hstart
  rw [quiet, if_neg hnan] at hread
  exact ⟨c, hread, hrest⟩

/-- A long number and a short one, the latter converted to the long format, are read back whole and
bit for bit from as many digits as they are written with. -/
theorem readReal_written (long : UInt64) (short : UInt32) :
    (double.decode long.toNat ≠ .nan →
      ∃ c, readReal 'd' double
          (Cursor.start (Bytes.ofChars (general 17 (double.decode long.toNat)))) =
            .ok long.toNat c ∧ c.rest = []) ∧
    (single.decode short.toNat ≠ .nan →
      ∃ c, readReal 'f' single
          (Cursor.start (Bytes.ofChars
            (general 9 (double.decode (single.convert double short.toNat))))) =
            .ok short.toNat c ∧ c.rest = []) := by
  have hlong : long.toNat < 2 * double.signBit := long.toNat_lt
  have hshort : short.toNat < 2 * single.signBit := short.toNat_lt
  refine ⟨fun hnan => ?_, fun hnan => ?_⟩
  · exact readReal_same 'd' double_suits hlong hnan (.refl _)
  · exact readReal_same 'f' single_suits hshort hnan
      (double_includes_single.same_decode_convert hshort hnan)

/-- The negative zero is read back with its sign, and the least short number from its digits. -/
theorem readReal_negative_zero_and_least :
    (∃ c, readReal 'd' double (Cursor.start (Bytes.ofText "-0")) = .ok 0x8000000000000000 c ∧
      c.rest = []) ∧
    ∃ c, readReal 'f' single (Cursor.start (Bytes.ofText "1.40129846e-45")) = .ok 1 c ∧
      c.rest = [] := by
  have hlong : Bytes.ofChars (general 17 (double.decode 0x8000000000000000)) =
      Bytes.ofText "-0" := by decide +kernel
  have hshort : Bytes.ofChars (general 9 (double.decode (single.convert double 1))) =
      Bytes.ofText "1.40129846e-45" := by decide +kernel
  have h := readReal_written 0x8000000000000000 1
  exact ⟨hlong ▸ h.1 (by decide +kernel), hshort ▸ h.2 (by decide +kernel)⟩

end

end RecordStore
