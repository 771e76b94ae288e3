import RecordStore.Proofs.DecimalTexts

/-!
# Real numbers that are written and read back

The text of a real number is one token up to a mark that follows, and is read back bit for bit. A
NaN is read back as the one quiet NaN of its format.

## Main definitions

* `Decimal.BinaryFormat.quiet` — the bits that are read back.

## Main statements

* `scanReal?_general` — the text of a number is one token.
* `readReal_general` — a number is read back.
-/

namespace RecordStore

theorem skipBlanks_general {c : Cursor} {precision : ℕ} {n : Decimal.Number} {rest : Bytes}
    (hne : Bytes.ofChars (Decimal.general precision n) ≠ [])
    (h : c.rest = Bytes.ofChars (Decimal.general precision n) ++ rest) :
    c.skipBlanks.rest = c.rest := by
  have hblanks : ∀ b, Bytes.isBlank b = true → Bytes.isMark b = true := by
    intro b hb
    simp only [Bytes.isBlank, Bool.or_eq_true, decide_eq_true_eq, or_assoc] at hb
    rcases hb with rfl | rfl | rfl | rfl | rfl <;> rfl
  have hmark := fun b hb => not_mem_general (b := b) hb precision n
  generalize Bytes.ofChars (Decimal.general precision n) = text at *
  cases text with
  | nil => exact absurd rfl hne
  | cons b text =>
    have hb : Bytes.isBlank b = false := by
      by_contra hblank
      exact hmark b (hblanks b (by simpa using hblank)) List.mem_cons_self
    rw [Cursor.skipBlanks, h]
    simp [hb]

/-! ## Scanning -/

section

variable {rest : Bytes}

theorem not_digit_of_mark (hr : ∀ b ∈ rest.head?, Bytes.isMark b = true) :
    ∀ b ∈ rest.head?, Bytes.isDigit b = false := by
  intro b hb
  have := hr b hb
  grind [Bytes.isMark]

/-- A mark is neither of the letters that may go on behind a number. -/
theorem lowerByte_of_mark {b : UInt8} (hb : Bytes.isMark b = true) :
    lowerByte b ≠ 0x65 ∧ lowerByte b ≠ 0x69 := by
  have hletters : ∀ n < 256, Bytes.isMark (UInt8.ofNat n) = true →
      lowerByte (UInt8.ofNat n) ≠ 0x65 ∧ lowerByte (UInt8.ofNat n) ≠ 0x69 := by decide +kernel
  have := hletters b.toNat b.toNat_lt
  rw [UInt8.ofNat_toNat] at this
  exact this hb

theorem scanExponent_of_mark (hr : ∀ b ∈ rest.head?, Bytes.isMark b = true) :
    scanExponent rest = (0, 0) := by
  cases rest with
  | nil => rfl
  | cons b rest => rw [scanExponent, if_neg (lowerByte_of_mark (hr b rfl)).1]

theorem scanExponent_exponentText {exponent : ℤ} (he : exponent.natAbs < exponentLimit)
    (hr : ∀ b ∈ rest.head?, Bytes.isDigit b = false) :
    scanExponent (Bytes.ofChars (Decimal.exponentText exponent) ++ rest) =
      (exponent, (Bytes.ofChars (Decimal.exponentText exponent)).length) := by
  obtain ⟨digits, htext, hd, hvalue, hlength, -⟩ := Decimal.exists_exponentText exponent
  have he : String.utf8EncodeChar 'e' = [0x65] := by decide
  have hsign : String.utf8EncodeChar (if exponent < 0 then '-' else '+') =
      [if decide (exponent < 0) then 0x2d else 0x2b] := by
    by_cases h : exponent < 0 <;> simp [h] <;> decide
  have hbytes : Bytes.ofChars (Decimal.exponentText exponent) =
      0x65 :: (if decide (exponent < 0) then 0x2d else 0x2b) :: Bytes.ofChars digits := by
    simp only [htext, Bytes.ofChars_cons, he, hsign, List.singleton_append]
  have hne : Bytes.ofChars digits ≠ [] := by
    rw [← List.length_pos_iff, Bytes.length_ofChars_digits hd]
    omega
  rw [← Bytes.value_ofChars hd] at hvalue
  replace hd := (Bytes.ofChars_digits hd 0).1
  rw [hbytes, List.cons_append, List.cons_append, scanExponent, if_pos (by decide),
    scanInteger_signed _ (fun _ => rfl) ⟨hne, hd⟩ hr]
  simp only [IntegerText.value, decide_eq_true_eq, List.length_cons, Prod.mk.injEq, and_true]
  rw [Decimal.Digits.cappedValue_eq (by rwa [hvalue]), hvalue]
  split <;> omega

namespace Decimal

/-- An exponent is read whole, and begins with neither a digit nor a point. -/
theorem IsExponent.scan {chars : List Char} {exponent : ℤ} (h : IsExponent chars exponent)
    (hr : ∀ b ∈ rest.head?, Bytes.isMark b = true) :
    scanExponent (Bytes.ofChars chars ++ rest) = (exponent, (Bytes.ofChars chars).length) ∧
      ∀ b ∈ (Bytes.ofChars chars ++ rest).head?, Bytes.isDigit b = false ∧ b ≠ 0x2e := by
  rcases h with ⟨rfl, rfl⟩ | ⟨rfl, he⟩
  · refine ⟨scanExponent_of_mark hr, ?_⟩
    intro b hb
    have := hr b hb
    grind [Bytes.isMark]
  · refine ⟨scanExponent_exponentText he (not_digit_of_mark hr), ?_⟩
    have he : String.utf8EncodeChar 'e' = [0x65] := by decide
    simp only [exponentText, Bytes.ofChars_cons, he, List.cons_append, List.head?_cons]
    rintro _ ⟨⟩
    decide

theorem scanFraction_dotted (whole : ℕ) {fraction : List Char}
    (hd : ∀ c ∈ fraction, c.isDigit = true)
    (hr : ∀ b ∈ rest.head?, Bytes.isDigit b = false ∧ b ≠ 0x2e) :
    scanFraction whole (Bytes.ofChars (dotted fraction) ++ rest) =
      (Bytes.ofChars fraction, (Bytes.ofChars (dotted fraction)).length) := by
  cases fraction with
  | nil =>
    rw [dotted, Bytes.ofChars_nil, List.nil_append]
    unfold scanFraction
    split
    · exact absurd rfl (hr _ rfl).2
    · rfl
  | cons c fraction =>
    have hpoint : String.utf8EncodeChar '.' = [0x2e] := by decide
    have hlength := Bytes.length_ofChars_digits hd
    have htake : (Bytes.ofChars (c :: fraction) ++ rest).takeWhile Bytes.isDigit =
        Bytes.ofChars (c :: fraction) :=
      takeWhile_digits (Bytes.ofChars_digits hd 0).1 fun b hb => (hr b hb).1
    simp only [dotted, Bytes.ofChars_cons '.', hpoint, List.nil_append, List.cons_append,
      scanFraction, htake, List.length_cons]
    rw [if_neg (by rw [hlength, List.length_cons]; omega)]

/-- A number in digits is read whole, as the number that it stands for. -/
theorem IsDecimal.scan {chars : List Char} {value : ℚ} (h : IsDecimal chars value)
    (hr : ∀ b ∈ rest.head?, Bytes.isMark b = true) :
    ∃ digits exponent, scanDecimal? (Bytes.ofChars chars ++ rest) =
        some (.decimal digits exponent, (Bytes.ofChars chars).length) ∧
      decimalValue digits exponent = value := by
  obtain ⟨whole, fraction, tail, exponent, rfl, hne, hd, ht, rfl⟩ := h
  have hwhole : ∀ c ∈ whole, c.isDigit = true := fun c hc => hd c (List.mem_append_left _ hc)
  have hfraction : ∀ c ∈ fraction, c.isDigit = true := fun c hc =>
    hd c (List.mem_append_right _ hc)
  obtain ⟨hexponent, hhead⟩ := ht.scan hr
  have hscan := scanFraction_dotted (Bytes.ofChars whole).length hfraction hhead
  have htake : (Bytes.ofChars whole ++ (Bytes.ofChars (dotted fraction) ++
      (Bytes.ofChars tail ++ rest))).takeWhile Bytes.isDigit = Bytes.ofChars whole := by
    refine takeWhile_digits (Bytes.ofChars_digits hwhole 0).1 ?_
    cases fraction with
    | nil => exact fun b hb => (hhead b hb).1
    | cons c fraction =>
      have hpoint : String.utf8EncodeChar '.' = [0x2e] := by decide
      simp only [dotted, Bytes.ofChars_cons '.', hpoint, List.cons_append, List.head?_cons]
      rintro _ ⟨⟩
      decide
  have hbytes : (Bytes.ofChars whole).isEmpty = false := by
    rw [List.isEmpty_eq_false_iff, ← List.length_pos_iff, Bytes.length_ofChars_digits hwhole]
    exact List.length_pos_iff.2 hne
  refine ⟨_, _, ?_, rfl⟩
  simp only [Bytes.ofChars_append, List.append_assoc, scanDecimal?, htake, List.drop_left, hscan,
    hbytes, Bool.false_and, Bool.false_eq_true, if_false]
  rw [← List.length_append, ← List.append_assoc, List.drop_left, hexponent]
  simp only [← Bytes.ofChars_append, Bytes.value_ofChars hd, Bytes.length_ofChars_digits hfraction]
  simp only [Bytes.ofChars_append, List.length_append, Nat.add_assoc]

theorem IsDecimal.head {chars : List Char} {value : ℚ} (h : IsDecimal chars value) :
    ∃ b bytes, Bytes.ofChars chars = b :: bytes ∧ Bytes.isDigit b = true := by
  obtain ⟨whole, fraction, tail, exponent, rfl, hne, hd, -, -⟩ := h
  cases whole with
  | nil => exact absurd rfl hne
  | cons c whole =>
    obtain ⟨b, hb, hdigit, -⟩ := Bytes.utf8EncodeChar_of_isDigit (hd c (by simp))
    exact ⟨b, _, by rw [List.cons_append, Bytes.ofChars_cons, hb]; rfl, hdigit⟩

end Decimal

theorem scanReal?_signed (negative : Bool) (chars : List Char) {number : RealText}
    (hhead : ∃ b bytes, Bytes.ofChars chars = b :: bytes ∧ b ≠ 0x2d ∧ b ≠ 0x2b)
    (h : (scanDecimal? (Bytes.ofChars chars ++ rest)).or
      (scanWord? (Bytes.ofChars chars ++ rest)) = some (number, (Bytes.ofChars chars).length)) :
    scanReal? (Bytes.ofChars (if negative then '-' :: chars else chars) ++ rest) =
      some (negative, number,
        (Bytes.ofChars (if negative then '-' :: chars else chars)).length) := by
  cases negative with
  | true =>
    have hminus : String.utf8EncodeChar '-' = [0x2d] := by decide
    have hsplit : splitSign (0x2d :: (Bytes.ofChars chars ++ rest)) =
        (some true, Bytes.ofChars chars ++ rest) := rfl
    simp [hminus, scanReal?, hsplit, h, Nat.add_comm]
  | false =>
    obtain ⟨b, bytes, hbytes, hminus, hplus⟩ := hhead
    have hsplit : splitSign (Bytes.ofChars chars ++ rest) =
        (none, Bytes.ofChars chars ++ rest) := by
      rw [hbytes, List.cons_append]
      unfold splitSign
      split <;> simp_all
    simp [scanReal?, hsplit, h]

theorem scanWord?_inf (hr : ∀ b ∈ rest.head?, Bytes.isMark b = true) :
    scanWord? (0x69 :: 0x6e :: 0x66 :: rest) = some (.infinity, 3) := by
  have hlong : Bytes.ofText "infinity" = [0x69, 0x6e, 0x66, 0x69, 0x6e, 0x69, 0x74, 0x79] := by
    decide
  have hshort : Bytes.ofText "inf" = [0x69, 0x6e, 0x66] := by decide
  have hnot : startsWithWord (Bytes.ofText "infinity") (0x69 :: 0x6e :: 0x66 :: rest) = false := by
    cases rest with
    | nil => decide
    | cons b rest => simp [startsWithWord, hlong, (lowerByte_of_mark (hr b rfl)).2]
  have hlower : lowerByte 0x69 = 0x69 ∧ lowerByte 0x6e = 0x6e ∧ lowerByte 0x66 = 0x66 := by decide
  have hyes : startsWithWord (Bytes.ofText "inf") (0x69 :: 0x6e :: 0x66 :: rest) = true := by
    simp [startsWithWord, hshort, hlower]
  rw [scanWord?, realWords, List.find?_cons_of_neg (by simp [hnot]),
    List.find?_cons_of_pos (by exact hyes), Option.map_some, hshort]
  rfl

theorem scanWord?_nan (rest : Bytes) :
    scanWord? (0x6e :: 0x61 :: 0x6e :: rest) = some (.nan, 3) := by
  have hlower : lowerByte 0x6e = 0x6e ∧ lowerByte 0x61 = 0x61 := by decide
  have hlong : Bytes.ofText "infinity" = [0x69, 0x6e, 0x66, 0x69, 0x6e, 0x69, 0x74, 0x79] := by
    decide
  have hshort : Bytes.ofText "inf" = [0x69, 0x6e, 0x66] := by decide
  have hnan : Bytes.ofText "nan" = [0x6e, 0x61, 0x6e] := by decide
  simp [scanWord?, realWords, startsWithWord, hlong, hshort, hnan, hlower]

/-! ## Numbers of a format -/

/-- The bits that the text of a number is read back as: its own, but one quiet NaN for all NaNs. -/
def Decimal.BinaryFormat.quiet (format : Decimal.BinaryFormat) (bits : ℕ) : ℕ :=
  if format.decode bits = .nan then format.quietNan else bits

namespace Decimal.BinaryFormat

theorem quiet_quiet (format : BinaryFormat) (bits : ℕ) :
    format.quiet (format.quiet bits) = format.quiet bits := by
  unfold quiet
  split <;> simp_all

theorem quietNan_lt (format : BinaryFormat) : format.quietNan < 2 * format.signBit := by
  have h : 0 < format.fractions := by simp [format.fractions_eq]
  rw [quietNan, signBit]
  omega

end Decimal.BinaryFormat

open Decimal Decimal.BinaryFormat

variable {format : BinaryFormat} {precision bits : ℕ}

/-- The text of a finite number is one token, which is read back as the bits of the number. -/
theorem scanReal?_finite {mantissa : ℕ} {exponent : ℤ} (hs : format.Suits precision)
    (hfits : format.Fits mantissa exponent)
    (hmag : format.magnitude mantissa exponent < format.infinity) (negative : Bool)
    (hr : ∀ b ∈ rest.head?, Bytes.isMark b = true) :
    ∃ number, scanReal? (Bytes.ofChars (general precision (.finite negative mantissa exponent)) ++
        rest) = some (negative, number,
          (Bytes.ofChars (general precision (.finite negative mantissa exponent))).length) ∧
      number.bits? format = some (format.magnitude mantissa exponent) := by
  have hp := hs.precision_pos
  obtain ⟨chars, value, htext, hdecimal, hread⟩ : ∃ chars value,
      general precision (.finite negative mantissa exponent) =
        (if negative then '-' :: chars else chars) ∧ IsDecimal chars value ∧
      ∀ digits place, decimalValue digits place = value →
        format.ofDecimal digits place = format.magnitude mantissa exponent := by
    rw [general, max_eq_left hp]
    by_cases hzero : mantissa = 0
    · subst hzero
      refine ⟨['0'], 0, by simp, ⟨['0'], [], [], 0, rfl, by simp, by simp, .inl ⟨rfl, rfl⟩, ?_⟩,
        ?_⟩
      · simp [decimalValue, show Nat.ofDigitChars 10 ['0'] 0 = 0 by decide]
      · intro digits place hvalue
        obtain rfl : digits = 0 := by
          simpa [decimalValue, zpow_ne_zero] using hvalue
        rw [hfits.exponent_eq, magnitude_zero, ofDecimal, if_pos rfl]
    · have hpos := Nat.pos_of_ne_zero hzero
      have hq : 0 < (binaryQuotient mantissa exponent).toRat := by
        rw [toRat_binaryQuotient]
        exact finiteValue_pos hpos exponent
      have hplace := natAbs_place_le hs hfits hpos hmag
      have hlimit : maxDecade < exponentLimit := by decide
      refine ⟨_, _, by rw [if_neg hzero], isDecimal_digitsText hp (significant_bounds hp hq).2
        (hplace.trans_lt hlimit), ?_⟩
      intro digits place hvalue
      exact ofDecimal_significant hs hfits hpos hmag hvalue
  rw [htext]
  obtain ⟨digits, place, hscan, hvalue⟩ := hdecimal.scan hr
  obtain ⟨b, bytes, hbytes, hdigit⟩ := hdecimal.head
  have hhead : b ≠ 0x2d ∧ b ≠ 0x2b := by
    constructor <;> rintro rfl <;> revert hdigit <;> decide
  refine ⟨.decimal digits place, scanReal?_signed negative chars ⟨b, bytes, hbytes, hhead⟩ ?_, ?_⟩
  · rw [hscan, Option.some_or]
  · rw [RealText.bits?, hread digits place hvalue, if_neg hmag.ne]

/-- The text of a number is one token, up to a mark. -/
theorem scanReal?_general (hs : format.Suits precision) (hbits : bits < 2 * format.signBit)
    (hr : ∀ b ∈ rest.head?, Bytes.isMark b = true) :
    ∃ negative number read,
      scanReal? (Bytes.ofChars (general precision (format.decode bits)) ++ rest) =
        some (negative, number,
          (Bytes.ofChars (general precision (format.decode bits))).length) ∧
      number.bits? format = some read ∧ format.signBits negative + read = format.quiet bits := by
  obtain ⟨negative, h | ⟨h, hvalue⟩ | ⟨mantissa, exponent, h, hfits, hmag, hvalue⟩⟩ :=
    decode_cases hbits
  · refine ⟨false, .nan, format.quietNan, ?_, rfl, by simp [quiet, h, signBits]⟩
    rw [h]
    exact scanReal?_signed false ['n', 'a', 'n']
      ⟨0x6e, [0x61, 0x6e], by decide, by decide, by decide⟩ (scanWord?_nan rest)
  · refine ⟨negative, .infinity, format.infinity, ?_, rfl, ?_⟩
    · rw [h]
      exact scanReal?_signed negative ['i', 'n', 'f']
        ⟨0x69, [0x6e, 0x66], by decide, by decide, by decide⟩ (scanWord?_inf hr)
    · rw [quiet, h, if_neg (by simp), hvalue]
  · obtain ⟨number, hscan, hread⟩ := scanReal?_finite hs hfits hmag negative hr
    refine ⟨negative, number, _, by rwa [h], hread, ?_⟩
    rw [quiet, h, if_neg (by simp), hvalue]

/-- A number is read back up to a mark. -/
theorem readReal_general (code : Char) {c : Cursor} (hs : format.Suits precision)
    (hbits : bits < 2 * format.signBit) (hr : ∀ b ∈ rest.head?, Bytes.isMark b = true)
    (h : c.rest = Bytes.ofChars (general precision (format.decode bits)) ++ rest) :
    ∃ c', readReal code format c = .ok (format.quiet bits) c' ∧ c'.rest = rest := by
  obtain ⟨negative, number, read, hscan, hread, hquiet⟩ := scanReal?_general hs hbits hr
  have hskip := skipBlanks_general (List.length_pos_iff.1 (length_pos_of_scanReal? hscan).1) h
  refine ⟨c.skipBlanks.advance (Bytes.ofChars (general precision (format.decode bits))).length,
    ?_, ?_⟩
  · rw [← h, ← hskip] at hscan
    simp only [readReal, readRealText, Scan.bind_apply, Scan.modify_apply, Scan.get_apply, hscan,
      Scan.pure_apply, hread]
    rw [← hquiet, signBits]
    cases negative <;> simp
  · rw [Cursor.advance, hskip, h]
    simp

end

end RecordStore
