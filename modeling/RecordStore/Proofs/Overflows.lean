import RecordStore.Proofs.RealTokens
import RecordStore.Proofs.SignificantDigits

/-!
# Real numbers that overflow

A decimal is rounded to infinity from halfway between the greatest number of a format and the power
of two beyond it. Behind the scan of a text nothing else makes the reading of a real number fail.
What is rounded is the number of the text, but for an exponent beyond the limit up to which it is
scanned.

## Main definitions

* `BinaryFormat.overflow` — the least number that is rounded to infinity.
* `RealText.Overflows` — whether a number is finite but rounded to infinity.

## Main statements

* `BinaryFormat.nearest_eq_infinity_iff`, `BinaryFormat.ofDecimal_eq_infinity_iff` — what overflows.
* `readRealText_eq_ok_iff`, `readReal_eq_error_iff` — when texts and numbers are read.
* `readRealText_longest` — the longest text of a real number is read.
* `readReal_refuses_small` — a number below one that is refused for its exponent.
-/

namespace RecordStore.Decimal.BinaryFormat

variable {f : BinaryFormat}

/-- The least number that is rounded to infinity: halfway between the greatest number and the power
of two beyond it. -/
def overflow (f : BinaryFormat) : ℚ :=
  (2 * f.fractions - 1 / 2) * (2 : ℚ) ^ (f.minExponent + (2 ^ f.exponentBits : ℕ) - 3)

theorem one_le_fractions (f : BinaryFormat) : (1 : ℚ) ≤ f.fractions := by
  exact_mod_cast f.fractions_pos

/-- A quotient with the exponent that it is rounded at: its mantissa is no longer than the format
allows, and no shorter unless the exponent is the least one. -/
theorem scaled_bounds {q : Quotient} {exponent : ℤ} (hq : 0 < q.toRat)
    (he : max f.minExponent (q.floorLog 2 - f.fractionBits) = exponent) :
    (q.scale 2 (-exponent)).toRat < 2 * f.fractions ∧
      (f.minExponent < exponent → f.fractions ≤ (q.scale 2 (-exponent)).toRat) := by
  obtain ⟨hlow, hhigh⟩ := Quotient.zpow_floorLog (by omega : 2 ≤ 2) hq
  have hunit : (0 : ℚ) < (2 : ℚ) ^ exponent := by positivity
  rw [Nat.cast_ofNat] at hlow hhigh
  rw [Quotient.toRat_scale, zpow_neg, Nat.cast_ofNat, ← div_eq_mul_inv, div_lt_iff₀ hunit,
    le_div_iff₀ hunit, ← f.two_zpow_fractionBits]
  constructor
  · calc q.toRat < (2 : ℚ) ^ (q.floorLog 2 + 1) := hhigh
      _ ≤ (2 : ℚ) ^ (1 + f.fractionBits + exponent : ℤ) :=
        zpow_le_zpow_right₀ one_le_two (by omega)
      _ = _ := by rw [zpow_add₀ two_ne_zero, zpow_one_add₀ two_ne_zero]
  · intro hlt
    calc (2 : ℚ) ^ (f.fractionBits : ℤ) * (2 : ℚ) ^ exponent
        = (2 : ℚ) ^ (q.floorLog 2) := by
          rw [← zpow_add₀ two_ne_zero]
          congr 1
          omega
      _ ≤ q.toRat := hlow

/-- What is rounded at the exponent of the greatest number overflows by a carry alone. -/
theorem roundHalfEven_carry {q : Quotient} (hd : 0 < q.den) (hlt : q.toRat < 2 * f.fractions) :
    2 * f.fractions ≤ q.roundHalfEven ↔ (2 * f.fractions - 1 / 2 : ℚ) ≤ q.toRat := by
  have hround := abs_le.1 (Quotient.abs_sub_roundHalfEven_le hd)
  constructor
  · intro h
    have h : (2 * f.fractions : ℚ) ≤ q.roundHalfEven := by exact_mod_cast h
    linarith
  · intro h
    have hclose : |q.toRat - (2 * f.fractions : ℕ)| ≤ 1 / 2 := by
      push_cast
      rw [abs_le]
      constructor <;> linarith
    rw [Quotient.roundHalfEven_eq_of_even hd hclose fun _ => ⟨f.fractions, by omega⟩]

/-- What is rounded at `k` above the least exponent reaches the power of two beyond the numbers at
`top` exactly from halfway to it. -/
theorem roundHalfEven_overflows_iff {q : Quotient} (hd : 0 < q.den) {k top : ℕ}
    (hhigh : q.toRat < 2 * f.fractions) (hlow : 0 < k → (f.fractions : ℚ) ≤ q.toRat) :
    (top + 2) * f.fractions ≤ k * f.fractions + q.roundHalfEven ↔
      (2 * f.fractions - 1 / 2 : ℚ) * (2 : ℚ) ^ (f.minExponent + top) ≤
        q.toRat * (2 : ℚ) ^ (f.minExponent + k) := by
  have hround := abs_le.1 (Quotient.abs_sub_roundHalfEven_le hd)
  have hF := f.one_le_fractions
  have hunit : (0 : ℚ) < (2 : ℚ) ^ (f.minExponent + k) := by positivity
  rcases lt_trichotomy k top with hlt | rfl | hgt
  · -- no carry reaches the exponent of infinity
    have hstep : 2 * (2 : ℚ) ^ (f.minExponent + k) ≤ (2 : ℚ) ^ (f.minExponent + top) := by
      rw [← zpow_one_add₀ two_ne_zero]
      exact zpow_le_zpow_right₀ one_le_two (by omega)
    have hmantissa : q.roundHalfEven ≤ 2 * f.fractions := by
      have : (q.roundHalfEven : ℚ) < 2 * f.fractions + 1 := by linarith
      exact Nat.lt_succ_iff.1 (by exact_mod_cast this)
    refine iff_of_false (not_le.2 ?_) (not_le.2 ?_)
    · nlinarith [f.fractions_pos]
    · nlinarith
  · rw [mul_le_mul_iff_left₀ hunit, ← roundHalfEven_carry hd hhigh, Nat.add_mul,
      Nat.add_le_add_iff_left]
  · have hstep : 2 * (2 : ℚ) ^ (f.minExponent + top) ≤ (2 : ℚ) ^ (f.minExponent + k) := by
      rw [← zpow_one_add₀ two_ne_zero]
      exact zpow_le_zpow_right₀ one_le_two (by omega)
    have hlow := hlow (by omega)
    have hmantissa : f.fractions ≤ q.roundHalfEven := by
      have : (f.fractions : ℚ) < q.roundHalfEven + 1 := by linarith
      exact Nat.lt_succ_iff.1 (by exact_mod_cast this)
    refine iff_of_true ?_ ?_
    · nlinarith
    · nlinarith [zpow_pos (two_pos : (0 : ℚ) < 2) (f.minExponent + top)]

/-- A quotient is rounded to infinity if it is not below the overflow. The exponent that it is
rounded at is compared with the one of the greatest number. -/
theorem nearest_eq_infinity_iff (hb : 2 ≤ f.exponentBits) {q : Quotient} (hq : 0 < q.toRat) :
    f.nearest q = f.infinity ↔ f.overflow ≤ q.toRat := by
  obtain ⟨top, htop⟩ : ∃ top, 2 ^ f.exponentBits = top + 3 :=
    Nat.exists_eq_add_of_le' ((by decide : 3 ≤ 2 ^ 2).trans (Nat.pow_le_pow_right two_pos hb))
  have hinfinity : f.infinity = (top + 2) * f.fractions := by
    rw [f.infinity_eq, Nat.pow_eq, htop]
    rfl
  have hoverflow : f.overflow = (2 * f.fractions - 1 / 2) * (2 : ℚ) ^ (f.minExponent + top) := by
    rw [overflow, htop]
    congr 2
    push_cast
    ring
  obtain ⟨k, he⟩ : ∃ k : ℕ, max f.minExponent (q.floorLog 2 - f.fractionBits) =
      f.minExponent + k := by
    obtain ⟨k, hk⟩ := Int.le.dest (le_max_left f.minExponent (q.floorLog 2 - f.fractionBits))
    exact ⟨k, hk.symm⟩
  obtain ⟨hhigh, hlow⟩ := scaled_bounds hq he
  have hd := Quotient.den_scale_pos two_pos (Quotient.den_pos_of_toRat_pos hq)
    (-(f.minExponent + k))
  have hunit : (0 : ℚ) < (2 : ℚ) ^ (f.minExponent + k) := by positivity
  have hscaled : q.toRat =
      (q.scale 2 (-(f.minExponent + k))).toRat * (2 : ℚ) ^ (f.minExponent + k) := by
    rw [Quotient.toRat_scale, zpow_neg, Nat.cast_ofNat, inv_mul_cancel_right₀ hunit.ne']
  rw [nearest, if_neg (Quotient.num_pos_of_toRat_pos hq).ne', he, min_eq_left_iff, hinfinity,
    hoverflow, hscaled, show (f.minExponent + k - f.minExponent).toNat = k by omega]
  exact roundHalfEven_overflows_iff hd hhigh fun hk => hlow (by omega)

theorem Suits.overflow_bounds {precision : ℕ} (hs : f.Suits precision) (hb : 2 ≤ f.exponentBits) :
    (10 : ℚ) ^ (1 - maxDecade : ℤ) ≤ f.overflow ∧ f.overflow ≤ (10 : ℚ) ^ (maxDecade - 1 : ℤ) := by
  have hF := f.one_le_fractions
  have hpow : 2 ^ 2 ≤ 2 ^ f.exponentBits := Nat.pow_le_pow_right two_pos hb
  have hunit : (0 : ℚ) < (2 : ℚ) ^ (f.minExponent + (2 ^ f.exponentBits : ℕ) - 3) := by positivity
  constructor
  · refine hs.le_least.trans ?_
    calc (2 : ℚ) ^ f.minExponent
        ≤ (2 : ℚ) ^ (f.minExponent + (2 ^ f.exponentBits : ℕ) - 3) :=
          zpow_le_zpow_right₀ one_le_two (by omega)
      _ ≤ f.overflow := le_mul_of_one_le_left hunit.le (by linarith)
  · refine le_trans ?_ hs.greatest_le
    have hquotient : f.infinity / f.fractions = 2 ^ f.exponentBits - 1 := by
      rw [f.infinity_eq, Nat.pow_eq, Nat.mul_div_cancel _ f.fractions_pos]
    have hunit' : (2 : ℚ) ^ (f.minExponent + (2 ^ f.exponentBits : ℕ) - 3) ≤
        (2 : ℚ) ^ (f.minExponent + (f.infinity / f.fractions : ℕ)) :=
      zpow_le_zpow_right₀ one_le_two (by omega)
    rw [overflow]
    gcongr
    linarith

/-- A decimal is rounded to infinity if it is not below the overflow. -/
theorem ofDecimal_eq_infinity_iff {precision : ℕ} (hs : f.Suits precision)
    (hb : 2 ≤ f.exponentBits) {digits : ℕ} {exponent : ℤ} :
    f.ofDecimal digits exponent = f.infinity ↔ f.overflow ≤ decimalValue digits exponent := by
  obtain ⟨hleast, hgreatest⟩ := hs.overflow_bounds hb
  have hten : (1 : ℚ) ≤ 10 := by norm_num
  have hpositive : 0 < f.overflow := lt_of_lt_of_le (by positivity) hleast
  have hinfinity : 0 ≠ f.infinity := by
    have hpow : 2 ^ 2 ≤ 2 ^ f.exponentBits := Nat.pow_le_pow_right two_pos hb
    rw [f.infinity_eq, Nat.pow_eq]
    exact (Nat.mul_pos (by omega) f.fractions_pos).ne
  rw [ofDecimal]
  split_ifs with hzero hhigh hlow
  · subst hzero
    refine iff_of_false hinfinity (not_le.2 ?_)
    simpa [decimalValue] using hpositive
  · have hone : (1 : ℚ) ≤ digits := by exact_mod_cast Nat.pos_of_ne_zero hzero
    refine iff_of_true rfl (hgreatest.trans ?_)
    calc (10 : ℚ) ^ (maxDecade - 1 : ℤ) ≤ (10 : ℚ) ^ exponent :=
          zpow_le_zpow_right₀ hten (by omega)
      _ ≤ decimalValue digits exponent := le_mul_of_one_le_left (by positivity) hone
  · simp only [Bool.and_eq_true, decide_eq_true_eq] at hlow
    refine iff_of_false hinfinity (not_le.2 (lt_of_lt_of_le ?_ hleast))
    exact decimalValue_lt_of_wholeLog (by omega)
  · have hvalue : 0 < (Quotient.scale ⟨digits, 1⟩ 10 exponent).toRat := by
      rw [toRat_scale_ten]
      exact mul_pos (by exact_mod_cast Nat.pos_of_ne_zero hzero) (by positivity)
    rw [nearest_eq_infinity_iff hb hvalue, toRat_scale_ten]

theorem one_le_overflow (h : 0 ≤ f.minExponent + (2 ^ f.exponentBits : ℕ) - 3) :
    1 ≤ f.overflow := by
  have hF := f.one_le_fractions
  exact one_le_mul_of_one_le_of_one_le (by linarith) (one_le_zpow₀ one_le_two h)

end RecordStore.Decimal.BinaryFormat

namespace RecordStore

open Decimal

variable {code : Char} {c c' : Cursor}

/-! ## Numbers that overflow -/

def RealText.Overflows (format : BinaryFormat) : RealText → Prop
  | infinity | nan => False
  | decimal digits exponent => format.overflow ≤ decimalValue digits exponent

theorem RealText.bits?_eq_none_iff {format : BinaryFormat} {precision : ℕ}
    (hs : format.Suits precision) (hb : 2 ≤ format.exponentBits) {number : RealText} :
    number.bits? format = none ↔ number.Overflows format := by
  cases number with
  | infinity => simp [bits?, Overflows]
  | nan => simp [bits?, Overflows]
  | decimal digits exponent =>
    simp [bits?, Overflows, BinaryFormat.ofDecimal_eq_infinity_iff hs hb]

/-- A text shorter than the limit of exponents overflows if it does as it is scanned. -/
theorem Reread.overflows {format : BinaryFormat} (hone : 1 ≤ format.overflow) {token : Bytes}
    {number own : RealText} (h : Reread scannedValue Digits.denoted token number own)
    (hl : token.length < exponentLimit) (hover : number.Overflows format) :
    own.Overflows format := by
  cases h with
  | same => exact hover
  | @exponent front digits letter n places sign ht _ _ hn =>
    rcases Digits.cappedValue_cases exponentLimit digits with heq | ⟨hlimit, hle⟩
    · rwa [← Digits.value_eq_denoted, ← heq]
    rw [Digits.value_eq_denoted] at hle
    have hten : (1 : ℚ) ≤ 10 := by norm_num
    rw [RealText.Overflows, signedNumber] at hover ⊢
    rw [scannedValue] at hover
    split_ifs at hover ⊢ with hsign
    · -- a negative exponent at the limit takes the digits below one
      have hfront : front.length < exponentLimit := by
        have := congrArg List.length ht
        simp only [List.length_append, List.length_cons] at this
        omega
      have hdigits : (n : ℚ) < (10 : ℚ) ^ (front.length : ℤ) := by exact_mod_cast hn
      refine absurd hover (not_le.2 (lt_of_lt_of_le ?_ hone))
      calc decimalValue n (-Digits.cappedValue exponentLimit digits - places)
          < (10 : ℚ) ^ (front.length : ℤ) *
              (10 : ℚ) ^ (-Digits.cappedValue exponentLimit digits - places : ℤ) :=
            mul_lt_mul_of_pos_right hdigits (by positivity)
        _ = (10 : ℚ) ^
              (front.length + (-Digits.cappedValue exponentLimit digits - places) : ℤ) :=
            (zpow_add₀ (by norm_num) _ _).symm
        _ ≤ 1 := zpow_le_one_of_nonpos₀ hten (by omega)
    · refine hover.trans (mul_le_mul_of_nonneg_left ?_ (by positivity))
      exact zpow_le_zpow_right₀ hten (by omega)

/-! ## Reading -/

/-- Reading gives the longest text of a real number behind the blanks, and moves behind it. -/
theorem readRealText_eq_ok_iff {negative : Bool} {number : RealText} {token : Bytes} :
    readRealText code c = .ok (negative, number, token) c' ↔
      RealToken scannedValue token (negative, number) ∧ token <+: c.skipBlanks.rest ∧
        (∀ other read, RealToken scannedValue other read → other <+: c.skipBlanks.rest →
          other.length ≤ token.length) ∧ c' = c.skipBlanks.advance token.length := by
  simp only [readRealText, Scan.bind_apply, Scan.modify_apply, Scan.get_apply]
  cases hscan : scanReal? c.skipBlanks.rest with
  | none =>
    refine iff_of_false ?_ ?_
    · simp only
      split <;> simp [Scan.bind_apply, Scan.throw_apply]
    · rintro ⟨ht, hp, -⟩
      exact scanReal?_eq_none_iff.1 hscan token _ ht hp
  | some scanned =>
    obtain ⟨negative', number', n⟩ := scanned
    obtain ⟨token', ht', hp', rfl, hl'⟩ := scanReal?_eq_some_iff.1 hscan
    simp only [Scan.bind_apply, Scan.modify_apply, Scan.pure_apply, EStateM.Result.ok.injEq,
      Prod.mk.injEq, ← List.prefix_iff_eq_take.1 hp']
    constructor
    · rintro ⟨⟨rfl, rfl, rfl⟩, rfl⟩
      exact ⟨ht', hp', hl', rfl⟩
    · rintro ⟨ht, hp, hl, rfl⟩
      have hlength := le_antisymm (hl' token _ ht hp) (hl token' _ ht' hp')
      obtain rfl := (List.prefix_of_prefix_length_le hp hp' hlength.le).eq_of_length hlength
      obtain ⟨rfl, rfl⟩ := Prod.mk.inj (ht'.unique ht)
      exact ⟨⟨rfl, rfl, rfl⟩, rfl⟩

/-- A failure leaves the cursor behind the blanks, with no text of a real number in front. -/
theorem eq_skipBlanks_of_readRealText_error {fault : DecodeError}
    (h : readRealText code c = .error fault c') :
    c' = c.skipBlanks ∧
      ∀ token read, RealToken scannedValue token read → ¬token <+: c.skipBlanks.rest := by
  simp only [readRealText, Scan.bind_apply, Scan.modify_apply, Scan.get_apply] at h
  cases hscan : scanReal? c.skipBlanks.rest with
  | none =>
    refine ⟨?_, scanReal?_eq_none_iff.1 hscan⟩
    simp only [hscan] at h
    split at h <;> simp_all [Scan.bind_apply, Scan.throw_apply]
  | some scanned =>
    simp [hscan, Scan.bind_apply, Scan.modify_apply, Scan.pure_apply] at h

/-- Behind a text that is read, only a number that overflows is refused. -/
theorem readReal_eq_error_iff {format : BinaryFormat} {precision : ℕ} (hs : format.Suits precision)
    (hb : 2 ≤ format.exponentBits) {negative : Bool} {number : RealText} {token : Bytes}
    (h : readRealText code c = .ok (negative, number, token) c') {fault : DecodeError}
    {c'' : Cursor} :
    readReal code format c = .error fault c'' ↔
      number.Overflows format ∧ fault = .badNumber code token ∧ c'' = c' := by
  rw [← RealText.bits?_eq_none_iff hs hb]
  simp only [readReal, Scan.bind_apply, h]
  cases number.bits? format with
  | none => simp [Scan.throw_apply, eq_comm]
  | some bits => simp [Scan.pure_apply]

/-- Reading a real number takes the longest text of one behind the blanks, which parsers take too,
and fails behind the blanks if there is none. Then it is refused only as a number that overflows,
where the digits of an exponent count as far as a limit. This is the number of the text if its
exponent is below the limit, and a text shorter than the limit overflows by itself if it is
refused. -/
theorem readRealText_longest (code : Char) (c : Cursor) :
    ((∃ read c', readRealText code c = .ok read c') ↔
        ∃ token read, RealToken Digits.denoted token read ∧ token <+: c.skipBlanks.rest) ∧
      (∀ negative number token c', readRealText code c = .ok (negative, number, token) c' →
        token <+: c.skipBlanks.rest ∧
          (∀ other read, RealToken Digits.denoted other read → other <+: c.skipBlanks.rest →
            other.length ≤ token.length) ∧
          c' = c.skipBlanks.advance token.length ∧ ParsableReal token ∧
          RealToken scannedValue token (negative, number) ∧
          ∃ own, RealToken Digits.denoted token (negative, own) ∧
            (ExponentBelow exponentLimit token → number = own) ∧
            ∀ format ∈ [BinaryFormat.single, BinaryFormat.double],
              (∀ fault c'', readReal code format c = .error fault c'' ↔
                number.Overflows format ∧ fault = .badNumber code token ∧ c'' = c') ∧
              (token.length < exponentLimit → number.Overflows format → own.Overflows format)) ∧
      ∀ fault c', readRealText code c = .error fault c' → c' = c.skipBlanks := by
  -- the texts are the same whatever their exponents stand for
  have hscanned : ∀ token read, RealToken Digits.denoted token read →
      ∃ read', RealToken scannedValue token read' := by
    rintro token ⟨negative, number⟩ ht
    obtain ⟨own, ht, -⟩ := ht.exists_reread scannedValue
    exact ⟨_, ht⟩
  refine ⟨?_, fun negative number token c' h => ?_, fun fault c' h =>
    (eq_skipBlanks_of_readRealText_error h).1⟩
  · constructor
    · rintro ⟨⟨negative, number, token⟩, c', h⟩
      obtain ⟨ht, hp, -⟩ := readRealText_eq_ok_iff.1 h
      obtain ⟨own, ht, -⟩ := ht.exists_reread Digits.denoted
      exact ⟨token, _, ht, hp⟩
    · rintro ⟨token, read, ht, hp⟩
      obtain ⟨read', ht⟩ := hscanned token read ht
      cases h : readRealText code c with
      | ok read c' => exact ⟨read, c', rfl⟩
      | error fault c' =>
        exact absurd hp ((eq_skipBlanks_of_readRealText_error h).2 token read' ht)
  · obtain ⟨ht, hp, hl, hc⟩ := readRealText_eq_ok_iff.1 h
    obtain ⟨own, hown, hreread⟩ := ht.exists_reread Digits.denoted
    refine ⟨hp, fun other read ho hother => ?_, hc, ht.parsable, ht, own, hown,
      hreread.eq_of_exponentBelow, fun format hformat => ?_⟩
    · obtain ⟨read', ho⟩ := hscanned other read ho
      exact hl other read' ho hother
    · simp only [List.mem_cons, List.not_mem_nil, or_false] at hformat
      rcases hformat with rfl | rfl
      · exact ⟨fun _ _ => readReal_eq_error_iff BinaryFormat.single_suits (by decide) h,
          hreread.overflows (BinaryFormat.one_le_overflow (by decide))⟩
      · exact ⟨fun _ _ => readReal_eq_error_iff BinaryFormat.double_suits (by decide) h,
          hreread.overflows (BinaryFormat.one_le_overflow (by decide))⟩

/-! ## A text that is refused for its exponent -/

/-- A one and zeros with an exponent beyond the limit. -/
def longToken (zeros : ℕ) : Bytes :=
  0x31 :: (List.replicate zeros 0x30 ++ Bytes.ofText "e-655360")

theorem denoted_one_zeros (zeros : ℕ) :
    Digits.denoted (0x31 :: List.replicate zeros 0x30) = 10 ^ zeros := by
  simp [Digits.denoted, Nat.ofDigits_append, Nat.ofDigits_replicate_zero]

theorem realToken_longToken (value : Bytes → ℕ) (zeros : ℕ) :
    RealToken value (longToken zeros)
      (false, .decimal (10 ^ zeros) (-value (Bytes.ofText "655360"))) := by
  have hm : Mantissa (0x31 :: List.replicate zeros 0x30) (0x31 :: List.replicate zeros 0x30) [] :=
    .whole ⟨List.cons_ne_nil _ _, by simp [Bytes.isDigit]⟩
  have he := @ExponentToken.digits value 0x65 (Bytes.ofText "655360") (some true) (.inl rfl)
    ⟨by decide, List.all_eq_true.1 (by decide)⟩
  have htext : longToken zeros = signText none ++ ((0x31 :: List.replicate zeros 0x30) ++
      0x65 :: (signText (some true) ++ Bytes.ofText "655360")) := by
    have hexponent : Bytes.ofText "e-655360" =
        0x65 :: (signText (some true) ++ Bytes.ofText "655360") := by decide
    rw [longToken, hexponent]
    rfl
  have ht := RealToken.mk none (.inl (.mk hm he))
  rw [← htext, List.append_nil, denoted_one_zeros] at ht
  simpa [signedNumber] using ht

theorem overflow_double_le : BinaryFormat.double.overflow ≤ (10 : ℚ) ^ 309 := by
  have hpow : 2 ^ 1024 ≤ 10 ^ 309 := by decide +kernel
  calc BinaryFormat.double.overflow = 18014398509481983 / 2 * 2 ^ 971 := by
        norm_num [BinaryFormat.overflow, BinaryFormat.double]
    _ ≤ 2 ^ 53 * 2 ^ 971 := by gcongr; norm_num
    _ = 2 ^ 1024 := (pow_add _ _ _).symm
    _ ≤ (10 : ℚ) ^ 309 := by exact_mod_cast hpow

theorem decimalValue_pow (zeros : ℕ) (exponent : ℤ) :
    decimalValue (10 ^ zeros) exponent = (10 : ℚ) ^ (zeros + exponent) := by
  rw [decimalValue, Nat.cast_pow, ← zpow_natCast, Nat.cast_ofNat, ← zpow_add₀ (by norm_num)]

/-- With enough zeros the text is read, but refused as too great. -/
theorem readReal_longToken {zeros : ℕ} (h : 65845 ≤ zeros) :
    ∃ read c', readRealText 'd' (.start (longToken zeros)) = .ok read c' ∧
      readReal 'd' .double (.start (longToken zeros)) =
        .error (.badNumber 'd' (longToken zeros)) c' := by
  have hskip : (Cursor.start (longToken zeros)).skipBlanks = .start (longToken zeros) :=
    Cursor.skipBlanks_of_append (List.nil_append _).symm (List.forall_mem_nil _)
      (by rintro _ ⟨⟩; decide)
  have hrest : (Cursor.start (longToken zeros)).skipBlanks.rest = longToken zeros :=
    congrArg Cursor.rest hskip
  have hread := (@readRealText_eq_ok_iff 'd' (.start (longToken zeros)) _ _ _ _).2
    ⟨realToken_longToken scannedValue zeros, hrest ▸ List.prefix_refl _,
      fun other read _ hp => by rw [hrest] at hp; exact hp.length_le, rfl⟩
  have hscanned : scannedValue (Bytes.ofText "655360") = 65536 := by decide
  have hover : RealText.Overflows .double
      (.decimal (10 ^ zeros) (-scannedValue (Bytes.ofText "655360"))) := by
    rw [RealText.Overflows, decimalValue_pow, hscanned]
    refine overflow_double_le.trans ?_
    rw [← zpow_natCast]
    exact zpow_le_zpow_right₀ (by norm_num) (by omega)
  exact ⟨_, _, hread, (readReal_eq_error_iff BinaryFormat.double_suits (by decide) hread).2
    ⟨hover, rfl, rfl⟩⟩

theorem not_overflows_of_lt {zeros exponent : ℕ} (h : zeros < exponent) :
    ¬RealText.Overflows .double (.decimal (10 ^ zeros) (-exponent)) := by
  rw [RealText.Overflows, decimalValue_pow, not_le]
  refine lt_of_lt_of_le ?_ (BinaryFormat.one_le_overflow (by decide))
  exact zpow_lt_one_of_neg₀ (by norm_num) (by omega)

/-- A text is refused that denotes a number below one. -/
theorem readReal_refuses_small :
    RealToken Digits.denoted (longToken 65845) (false, .decimal (10 ^ 65845) (-655360)) ∧
      ¬RealText.Overflows .double (.decimal (10 ^ 65845) (-655360)) ∧
      ∃ read c', readRealText 'd' (.start (longToken 65845)) = .ok read c' ∧
        readReal 'd' .double (.start (longToken 65845)) =
          .error (.badNumber 'd' (longToken 65845)) c' := by
  have hexponent : Digits.denoted (Bytes.ofText "655360") = 655360 := by decide
  have htoken := realToken_longToken Digits.denoted 65845
  have hsmall := @not_overflows_of_lt 65845 655360 (by decide)
  rw [hexponent, Nat.cast_ofNat] at htoken
  rw [Nat.cast_ofNat] at hsmall
  exact ⟨htoken, hsmall, readReal_longToken le_rfl⟩

end RecordStore
