import RecordStore.Decimal.Places
import RecordStore.Proofs.DecimalTexts

/-!
# Forms that are rounded by themselves

The form with the point in place may be rounded by itself, after the scientific form has said how
many places there are. Both roundings give the same digits, also where the first one carries into
the next power of ten.

## Main statements

* `Decimal.trimFraction_dotted` — zeros may be dropped from the whole text.
* `Decimal.roundHalfEven_scale_place` — the second rounding gives the digits of the first.
* `Decimal.twiceRounded_eq_general` — a number has the same text either way.
-/

namespace RecordStore.Decimal

/-! ## Digits -/

namespace Digits

theorem lastChars_mod (width n : ℕ) : lastChars width n = lastChars width (n % 10 ^ width) := by
  have h := lastChars_add 0 width n
  rwa [Nat.zero_add, lastChars, List.nil_append] at h

theorem lastChars_zero (width : ℕ) : lastChars width 0 = List.replicate width '0' := by
  induction width with
  | zero => rfl
  | succ width ih =>
    rw [lastChars, Nat.zero_div, ih, List.replicate_succ']
    rfl

/-- A number has as many digits as are not zero at its front. -/
theorem lastChars_eq_toDigits {width n : ℕ} (hlow : 10 ^ width ≤ n) (hhigh : n < 10 ^ (width + 1)) :
    lastChars (width + 1) n = Nat.toDigits 10 n := by
  induction width generalizing n with
  | zero =>
    have hlt : n < 10 := by simpa using hhigh
    rw [Nat.toDigits_of_lt_base hlt, lastChars, Nat.mod_eq_of_lt hlt]
    rfl
  | succ width ih =>
    have hten : 10 ≤ n := by
      have := Nat.pow_le_pow_right (by omega : 0 < 10) (by omega : 1 ≤ width + 1)
      omega
    rw [Nat.toDigits_of_base_le (by omega) hten, lastChars, ih]
    · rwa [Nat.le_div_iff_mul_le (by omega), ← Nat.pow_succ]
    · rwa [Nat.div_lt_iff_lt_mul (by omega), ← Nat.pow_succ]

end Digits

/-! ## Zeros at the end of a fraction -/

/-- What is dropped in front of a character that stays does not reach behind it. -/
theorem dropWhile_append_cons {p : Char → Bool} {c : Char} (hc : p c = false)
    (front back : List Char) :
    (front ++ c :: back).dropWhile p = front.dropWhile p ++ c :: back := by
  induction front with
  | nil => exact List.dropWhile_cons_of_neg (by simp [hc])
  | cons d front ih =>
    rw [List.cons_append, List.dropWhile_cons, List.dropWhile_cons]
    split
    · exact ih
    · rfl

/-- Dropping zeros from the whole text of a number drops them from its fraction. -/
theorem trimFraction_dotted {whole fraction : List Char}
    (hd : ∀ c ∈ whole ++ fraction, c.isDigit = true) :
    trimFraction (whole ++ dotted fraction) = pointed whole fraction := by
  have hpoint : ∀ c ∈ whole ++ fraction, decide (c = '.') = false := by
    intro c hc
    refine decide_eq_false ?_
    rintro rfl
    exact absurd (hd _ hc) (by decide)
  have hwhole : whole.reverse.dropWhile (· = '.') = whole.reverse := by
    rw [List.dropWhile_eq_self_iff]
    intro hpos
    simpa using hpoint _ (List.mem_append_left _ (List.mem_reverse.1 (List.getElem_mem hpos)))
  rw [pointed_eq]
  cases hf : fraction with
  | nil =>
    have hnone : whole.contains '.' = false := by
      rw [List.contains_eq_mem, decide_eq_false_iff_not]
      intro hm
      simpa using hpoint _ (List.mem_append_left _ hm)
    have hnil : trimZeros [] = [] := rfl
    rw [hnil, dotted, List.append_nil, trimFraction, hnone, if_neg (by decide)]
  | cons c rest =>
    have hzeros : (whole ++ '.' :: fraction).reverse.dropWhile (· = '0') =
        (trimZeros fraction).reverse ++ '.' :: whole.reverse := by
      rw [List.reverse_append, List.reverse_cons, List.append_assoc, List.singleton_append,
        dropWhile_append_cons (by decide), trimZeros, List.reverse_reverse]
    rw [dotted, ← hf, trimFraction, if_pos (by simp), hzeros]
    · cases hkept : (trimZeros fraction).reverse with
      | nil =>
        have hnil : trimZeros fraction = [] := List.reverse_eq_nil_iff.1 hkept
        rw [hnil, dotted, List.nil_append, List.dropWhile_cons_of_pos (by decide), hwhole,
          List.reverse_reverse, List.append_nil]
      | cons d tail =>
        have hm : d ∈ trimZeros fraction := List.mem_reverse.1 (hkept ▸ List.mem_cons_self)
        have hd : decide (d = '.') = false :=
          hpoint d (List.mem_append_right _ (mem_of_mem_trimZeros hm))
        have hdotted : dotted (trimZeros fraction) = '.' :: trimZeros fraction := by
          cases h : trimZeros fraction with
          | nil => simp [h] at hm
          | cons => rfl
        rw [List.cons_append, List.dropWhile_cons_of_neg (by simpa using hd), hdotted,
          ← List.cons_append, ← hkept]
        simp
    · simp

/-! ## Forms that are rounded by themselves -/

section

variable {precision : ℕ} {q : Quotient}

theorem scientific_eq (places : ℕ) (q : Quotient) :
    q.scientific places = ((Digits.lastChars (places + 1) (significant (places + 1) q).1).take 1 ++
      dotted ((Digits.lastChars (places + 1) (significant (places + 1) q).1).drop 1),
        (significant (places + 1) q).2) := by
  have hlength := Digits.length_lastChars (places + 1) (significant (places + 1) q).1
  simp only [Quotient.scientific, Digits.chars_eq_lastChars]
  generalize Digits.lastChars (places + 1) (significant (places + 1) q).1 = chars at *
  obtain _ | ⟨c, _ | ⟨d, rest⟩⟩ := chars
  · cases hlength
  · obtain rfl : places = 0 := by simpa using hlength.symm
    rfl
  · rw [if_neg (by rintro rfl; simp at hlength)]
    rfl

/-- Rounded to as many places behind the point as the significant digits leave there, a quotient
has these digits. A carry to the next power of ten leaves a place less, and is a carry still. -/
theorem roundHalfEven_scale_place (hp : 0 < precision) (hq : 0 < q.toRat) :
    (q.scale 10 (precision - 1 - (significant precision q).2)).roundHalfEven =
      (significant precision q).1 := by
  obtain ⟨-, -, hround⟩ := scaled_bounds hp hq
  obtain ⟨digits, rfl, ⟨hcarry, hs⟩ | ⟨-, hs⟩⟩ := significant_cases precision q
  · rw [hs]
    have hscaled : (q.scale 10 (precision - 1 - (q.floorLog 10 + 1))).toRat =
        (q.scale 10 (precision - 1 - q.floorLog 10)).toRat / 10 := by
      rw [Quotient.toRat_scale, Quotient.toRat_scale, mul_div_assoc, Nat.cast_ofNat]
      congr 1
      rw [← sub_sub, zpow_sub_one₀ (by norm_num), div_eq_mul_inv]
    have hpower : (10 : ℚ) ^ precision = 10 * 10 ^ (precision - 1) := by
      rw [← pow_succ', Nat.sub_add_cancel hp]
    rw [hcarry] at hround
    push_cast at hround
    rw [hpower] at hround
    refine Quotient.roundHalfEven_eq (Quotient.den_scale_pos (by omega)
      (Quotient.den_pos_of_toRat_pos hq) _) ?_
    rw [hscaled]
    push_cast
    rw [abs_le] at hround
    rw [abs_lt]
    constructor <;> linarith [hround.1, hround.2]
  · rw [hs]

theorem fixed_eq (q : Quotient) (places : ℕ) :
    q.fixed places = Nat.toDigits 10 ((q.scale 10 places).roundHalfEven / 10 ^ places) ++
      dotted (Digits.lastChars places (q.scale 10 places).roundHalfEven) := by
  simp only [Quotient.fixed, Digits.chars_eq_lastChars, Nat.pow_eq]
  cases places with
  | zero => simp [Digits.lastChars, dotted]
  | succ places =>
    have hlength := Digits.length_lastChars (places + 1)
      (q.scale 10 (places + 1 : ℕ)).roundHalfEven
    rw [if_neg (by omega)]
    generalize Digits.lastChars (places + 1) _ = chars at *
    cases chars with
    | nil => cases hlength
    | cons => rfl

/-- As many places as the significant digits leave show these digits. -/
theorem fixed_digits {digits : ℕ} {place : ℤ} {places : ℕ} (hlow : 10 ^ (precision - 1) ≤ digits)
    (hhigh : digits < 10 ^ precision) (hp : 0 < precision)
    (hplaces : (places : ℤ) = precision - 1 - place) :
    Nat.toDigits 10 (digits / 10 ^ places) ++ dotted (Digits.lastChars places digits) =
      if place < 0 then
        ['0'] ++ dotted (List.replicate (-place - 1).toNat '0' ++ Digits.lastChars precision digits)
      else
        (Digits.lastChars precision digits).take (place.toNat + 1) ++
          dotted ((Digits.lastChars precision digits).drop (place.toNat + 1)) := by
  split
  · have hwidth : places = (-place - 1).toNat + precision := by omega
    have hzero : digits / 10 ^ places = 0 :=
      Nat.div_eq_of_lt (hhigh.trans_le (Nat.pow_le_pow_right (by omega) (by omega)))
    rw [hzero, Nat.toDigits_zero, hwidth, Digits.lastChars_add, Nat.pow_eq,
      Nat.div_eq_of_lt hhigh, Nat.mod_eq_of_lt hhigh, Digits.lastChars_zero]
  · have hwidth : precision = (place.toNat + 1) + places := by omega
    have hwhole : Digits.lastChars (place.toNat + 1) (digits / 10 ^ places) =
        Nat.toDigits 10 (digits / 10 ^ places) := by
      have hpos : 0 < 10 ^ places := Nat.pow_pos (by omega)
      apply Digits.lastChars_eq_toDigits
      · rwa [Nat.le_div_iff_mul_le hpos, ← Nat.pow_add,
          show place.toNat + places = precision - 1 by omega]
      · rwa [Nat.div_lt_iff_lt_mul hpos, ← Nat.pow_add, ← hwidth]
    have hlength := Digits.length_lastChars (place.toNat + 1) (digits / 10 ^ places)
    rw [hwidth, Digits.lastChars_add, Nat.pow_eq, ← Digits.lastChars_mod, List.take_left' hlength,
      List.drop_left' hlength, hwhole]

/-- A quotient that is rounded to the places that its significant digits leave has the text of
these digits. -/
theorem trimFraction_fixed (hp : 0 < precision) (hq : 0 < q.toRat)
    (hform : ¬IsScientific precision (significant precision q).2) :
    trimFraction (q.fixed (precision - 1 - (significant precision q).2).toNat) =
      digitsText precision (significant precision q).1 (significant precision q).2 := by
  obtain ⟨hlow, hhigh⟩ := significant_bounds hp hq
  have hround := roundHalfEven_scale_place hp hq
  generalize significant precision q = found at *
  obtain ⟨digits, place⟩ := found
  dsimp only at *
  have hplaces : ((precision - 1 - place).toNat : ℤ) = precision - 1 - place := by
    simp only [IsScientific, not_or, not_le] at hform
    omega
  have hdigit : ∀ c ∈ Digits.lastChars precision digits, c.isDigit = true :=
    Digits.isDigit_lastChars
  rw [fixed_eq, hplaces, hround, fixed_digits hlow hhigh hp hplaces, digitsText, isScientific_eq,
    decide_eq_false hform, Digits.chars_eq_lastChars, if_neg Bool.false_ne_true]
  split
  · refine trimFraction_dotted fun c hc => ?_
    simp only [List.mem_append, List.mem_singleton, List.mem_replicate] at hc
    rcases hc with rfl | ⟨-, rfl⟩ | hc
    · rfl
    · rfl
    · exact hdigit c hc
  · exact trimFraction_dotted (by rwa [List.take_append_drop])

theorem trimFraction_scientific (hp : 0 < precision) (q : Quotient) :
    trimFraction (q.scientific (precision - 1)).1 =
      pointed ((Digits.lastChars precision (significant precision q).1).take 1)
        ((Digits.lastChars precision (significant precision q).1).drop 1) := by
  rw [scientific_eq, Nat.sub_add_cancel hp]
  refine trimFraction_dotted ?_
  rw [List.take_append_drop]
  exact Digits.isDigit_lastChars

/-- Rounding each form by itself gives the digits that are rounded once. -/
theorem twiceRounded_eq_general (precision : ℕ) (n : Number) :
    twiceRounded precision n = general precision n := by
  cases n with
  | nan => rfl
  | infinite => rfl
  | finite negative mantissa exponent =>
    have hp : 0 < max precision 1 := by omega
    by_cases hzero : mantissa = 0
    · simp only [twiceRounded, general, hzero, if_true]
    have hq : 0 < (binaryQuotient mantissa exponent).toRat := by
      rw [toRat_binaryQuotient]
      exact finiteValue_pos (Nat.pos_of_ne_zero hzero) exponent
    have hplace : ((binaryQuotient mantissa exponent).scientific (max precision 1 - 1)).2 =
        (significant (max precision 1) (binaryQuotient mantissa exponent)).2 := by
      rw [scientific_eq, Nat.sub_add_cancel hp]
    simp only [twiceRounded, general, hzero, if_false, hplace, trimFraction_scientific hp]
    generalize hfound : significant (max precision 1) (binaryQuotient mantissa exponent) = found
    by_cases hs : IsScientific (max precision 1) found.2
    · simp only [digitsText, Digits.chars_eq_lastChars, isScientific_eq, hs, decide_true, if_true]
    · subst hfound
      simp only [isScientific_eq, hs, decide_false, Bool.false_eq_true, if_false,
        trimFraction_fixed hp hq hs]

end

end RecordStore.Decimal
