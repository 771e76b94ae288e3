import Mathlib.Data.List.DropRight
import RecordStore.Proofs.IntegerTexts
import RecordStore.Proofs.SignificantDigits

/-!
# Characters of real numbers

The text of a finite number is decimal digits with an optional fraction and exponent, and stands for
the rounded decimal. It is made of letters, digits, signs and points only.

## Main definitions

* `Decimal.IsScientific` — which numbers are written in the scientific form.
* `Decimal.IsDecimal` — the characters of a number in digits.

## Main statements

* `Decimal.exists_digitsText` — the parts of the text of rounded digits.
* `Decimal.isDecimal_digitsText` — the number that the text of rounded digits stands for.
* `not_mem_general` — no byte of a number is a mark.
-/

namespace RecordStore

/-! ## Characters of numbers -/

namespace Bytes

@[simp] theorem ofChars_nil : ofChars [] = [] := rfl

@[simp] theorem ofChars_append (front back : List Char) :
    ofChars (front ++ back) = ofChars front ++ ofChars back := by
  simp [ofChars]

@[simp] theorem ofChars_cons (c : Char) (chars : List Char) :
    ofChars (c :: chars) = String.utf8EncodeChar c ++ ofChars chars := by
  simp [ofChars]

theorem value_ofChars {chars : List Char} (h : ∀ c ∈ chars, c.isDigit = true) :
    Decimal.Digits.value (ofChars chars) = Nat.ofDigitChars 10 chars 0 := by
  rw [Decimal.Digits.value_eq_foldl, (ofChars_digits h 0).2]

theorem length_ofChars_digits {chars : List Char} (h : ∀ c ∈ chars, c.isDigit = true) :
    (ofChars chars).length = chars.length := by
  induction chars with
  | nil => rfl
  | cons c chars ih =>
    obtain ⟨hc, h⟩ := List.forall_mem_cons.1 h
    obtain ⟨b, hb, -, -⟩ := utf8EncodeChar_of_isDigit hc
    simp [hb, ih h]

def isNumberChar (c : Char) : Bool := c.isAlphanum || c == '.' || c == '+' || c == '-'

theorem not_mark_of_isNumberChar {c : Char} {b : UInt8} (hc : isNumberChar c = true)
    (hm : b ∈ String.utf8EncodeChar c) : isMark b = false := by
  have hval : c.val.toNat ≤ 122 ∧ ((48 ≤ c.val.toNat ∧ c.val.toNat ≤ 57) ∨
      (65 ≤ c.val.toNat ∧ c.val.toNat ≤ 90) ∨ 97 ≤ c.val.toNat ∨ c.val.toNat = 46 ∨
        c.val.toNat = 43 ∨ c.val.toNat = 45) := by
    have halphanum : c.isAlphanum =
        (decide (c.val ≥ 65 ∧ c.val ≤ 90) ||
          decide (c.val ≥ 97) && decide (c.val ≤ 122) ||
          decide (c.val ≥ 48) && decide (c.val ≤ 57)) := rfl
    simp only [isNumberChar, halphanum, Bool.or_eq_true, Bool.and_eq_true, decide_eq_true_eq,
      beq_iff_eq, ge_iff_le, UInt32.le_iff_toNat_le] at hc
    rcases hc with (((((⟨h, h'⟩ | ⟨h, h'⟩) | ⟨h, h'⟩) | rfl) | rfl) | rfl)
    all_goals simp at *
    all_goals omega
  have hsize : c.utf8Size = 1 := by
    rw [Char.utf8Size_eq_one_iff, UInt32.le_iff_toNat_le]
    exact hval.1.trans (by decide)
  rw [String.utf8EncodeChar_eq_singleton hsize, List.mem_singleton] at hm
  have hb : b.toNat = c.val.toNat := by
    rw [hm, UInt32.toNat_toUInt8]
    omega
  rw [isMark, Bool.and_eq_false_iff]
  right
  simp only [isDigit, Bool.not_eq_false', Bool.or_eq_true, Bool.and_eq_true, decide_eq_true_eq,
    UInt8.le_iff_toNat_le, ← UInt8.toNat_inj, hb]
  have hnat : c.val.toNat = c.toNat := rfl
  rw [hnat] at hval ⊢
  simp
  omega

end Bytes

namespace Decimal

namespace Digits

theorem isDigit_lastChars {width n : ℕ} : ∀ c ∈ lastChars width n, c.isDigit = true := by
  induction width generalizing n with
  | zero => simp [lastChars]
  | succ width ih =>
    intro c hc
    rcases List.mem_append.1 hc with hc | hc
    · exact ih c hc
    · obtain rfl := List.mem_singleton.1 hc
      simp [Nat.isDigit_digitChar, Nat.mod_lt]

theorem ofDigitChars_lastChars (width n : ℕ) :
    Nat.ofDigitChars 10 (lastChars width n) 0 = n % 10 ^ width := by
  induction width generalizing n with
  | zero => simp [lastChars, Nat.mod_one]
  | succ width ih =>
    have hlast := Nat.mod_lt n (by decide : 0 < 10)
    rw [lastChars, Nat.ofDigitChars_append, ih, Nat.ofDigitChars_cons_digitChar_of_lt_ten hlast,
      Nat.ofDigitChars_nil, Nat.pow_succ, Nat.mul_comm (10 ^ width), Nat.mod_mul]
    omega

end Digits

/-- A fraction behind its point; there is no point without digits. -/
def dotted : List Char → List Char
  | [] => []
  | fraction => '.' :: fraction

theorem pointed_eq (whole fraction : List Char) :
    pointed whole fraction = whole ++ dotted (trimZeros fraction) := by
  rw [pointed]
  split
  · rename_i h
    simp [h, dotted]
  · rename_i h
    cases ht : trimZeros fraction <;> simp_all [dotted]

/-- What is dropped from the end of a fraction is zeros. -/
theorem exists_trimZeros (fraction : List Char) :
    ∃ zeros, fraction = trimZeros fraction ++ List.replicate zeros '0' := by
  refine ⟨(fraction.rtakeWhile (· = '0')).length, ?_⟩
  have hzeros : fraction.rtakeWhile (· = '0') =
      List.replicate (fraction.rtakeWhile (· = '0')).length '0' := by
    rw [List.eq_replicate_iff]
    exact ⟨rfl, fun c hc => by simpa using List.mem_rtakeWhile_imp hc⟩
  rw [← hzeros]
  exact (List.rdropWhile_append_rtakeWhile).symm

theorem mem_of_mem_trimZeros {c : Char} {fraction : List Char} (h : c ∈ trimZeros fraction) :
    c ∈ fraction :=
  (List.rdropWhile_prefix (· = '0') fraction).subset h

/-- The last digit of a fraction without its zeros is none. -/
theorem getLast?_trimZeros (fraction : List Char) : (trimZeros fraction).getLast? ≠ some '0' := by
  intro h
  change (fraction.rdropWhile (· = '0')).getLast? = some '0' at h
  have hne : fraction.rdropWhile (· = '0') ≠ [] := by
    intro hnil
    simp [hnil] at h
  have hlast := List.rdropWhile_last_not (· = '0') fraction hne
  rw [List.getLast?_eq_some_getLast hne] at h
  simp_all

theorem decimalValue_trimZeros (whole fraction : List Char) (exponent : ℤ) :
    decimalValue (Nat.ofDigitChars 10 (whole ++ trimZeros fraction) 0)
        (exponent - (trimZeros fraction).length) =
      decimalValue (Nat.ofDigitChars 10 (whole ++ fraction) 0) (exponent - fraction.length) := by
  obtain ⟨zeros, hzeros⟩ := exists_trimZeros fraction
  have hvalue : Nat.ofDigitChars 10 (whole ++ fraction) 0 =
      Nat.ofDigitChars 10 (whole ++ trimZeros fraction) 0 * 10 ^ zeros := by
    conv => lhs; rw [hzeros, ← List.append_assoc]
    rw [Nat.ofDigitChars_append, Nat.ofDigitChars_replicate_zero, Nat.mul_comm]
  have hlength : (fraction.length : ℤ) = (trimZeros fraction).length + zeros := by
    conv => lhs; rw [hzeros]
    simp
  rw [hvalue, decimalValue_mul_pow, hlength]
  congr 1
  ring

/-- Whether a number whose first digit has the decimal exponent `place` is written in the
scientific form. -/
def IsScientific (precision : ℕ) (place : ℤ) : Prop :=
  place < minPointedExponent ∨ (precision : ℤ) ≤ place

instance (precision : ℕ) (place : ℤ) : Decidable (IsScientific precision place) :=
  inferInstanceAs (Decidable (_ ∨ _))

theorem isScientific_eq (precision : ℕ) (place : ℤ) :
    (place < minPointedExponent || (precision : ℤ) ≤ place) =
      decide (IsScientific precision place) := by
  rw [← Bool.decide_or]
  rfl

/-- The digits before the point and behind it, as they are before zeros are dropped. They stand for
the number, the first one at its place. -/
theorem exists_digitsText {precision digits : ℕ} (place : ℤ) (hp : 0 < precision)
    (hlt : digits < 10 ^ precision) :
    ∃ whole fraction, digitsText precision digits place = pointed whole fraction ++
        (if IsScientific precision place then exponentText place else []) ∧
      whole.length = (if IsScientific precision place then 1 else place.toNat + 1) ∧
      (∀ c ∈ whole ++ fraction, c.isDigit = true) ∧
      decimalValue (Nat.ofDigitChars 10 (whole ++ fraction) 0)
        ((if IsScientific precision place then place else 0) - fraction.length) =
          decimalValue digits (place + 1 - precision) := by
  have hdigit : ∀ c ∈ Digits.lastChars precision digits, c.isDigit = true :=
    Digits.isDigit_lastChars
  have hvalue := Digits.ofDigitChars_lastChars precision digits
  rw [Nat.mod_eq_of_lt hlt] at hvalue
  have hlength := Digits.length_lastChars precision digits
  rw [digitsText, Digits.chars_eq_lastChars, isScientific_eq]
  generalize Digits.lastChars precision digits = chars at *
  have htake (n : ℕ) : chars.take n ++ chars.drop n = chars := List.take_append_drop n chars
  by_cases hs : IsScientific precision place
  · simp only [hs, decide_true, if_true]
    refine ⟨chars.take 1, chars.drop 1, rfl, ?_, by rwa [htake], ?_⟩
    · rw [List.length_take, hlength]
      omega
    · rw [htake, hvalue, List.length_drop, hlength, Nat.cast_sub hp]
      congr 1
      push_cast
      ring
  · simp only [hs, decide_false, Bool.false_eq_true, if_false, List.append_nil]
    simp only [IsScientific, minPointedExponent, not_or, not_lt, not_le] at hs
    split
    · -- zeros between the point and the first digit
      refine ⟨['0'], List.replicate (-place - 1).toNat '0' ++ chars, rfl, ?_, ?_, ?_⟩
      · rw [List.length_singleton]
        omega
      · intro c hc
        simp only [List.mem_append, List.mem_singleton, List.mem_replicate] at hc
        rcases hc with rfl | ⟨-, rfl⟩ | hc
        · rfl
        · rfl
        · exact hdigit c hc
      · rw [← List.append_assoc, ← List.replicate_one, ← List.replicate_add,
          Nat.ofDigitChars_append, Nat.ofDigitChars_replicate_zero, Nat.mul_zero, hvalue,
          List.length_append, List.length_replicate, hlength]
        congr 1
        push_cast
        omega
    · -- the point behind the digit of the units
      refine ⟨chars.take (place.toNat + 1), chars.drop (place.toNat + 1), rfl, ?_,
        by rwa [htake], ?_⟩
      · rw [List.length_take, hlength]
        omega
      · rw [htake, hvalue, List.length_drop, hlength, Nat.cast_sub (by omega)]
        congr 1
        push_cast
        omega

/-- An exponent is written with its sign and at least two digits, and with no more than it has. -/
theorem exists_exponentText (exponent : ℤ) :
    ∃ digits, exponentText exponent = 'e' :: (if exponent < 0 then '-' else '+') :: digits ∧
      (∀ c ∈ digits, c.isDigit = true) ∧ Nat.ofDigitChars 10 digits 0 = exponent.natAbs ∧
      2 ≤ digits.length ∧ (2 < digits.length → 10 ^ (digits.length - 1) ≤ exponent.natAbs) := by
  have hd : ∀ c ∈ Nat.toDigits 10 exponent.natAbs, c.isDigit = true := fun c hc =>
    Nat.isDigit_of_mem_toDigits (by decide) (by decide) hc
  have hvalue := Nat.ofDigitChars_ten_toDigits (n := exponent.natAbs)
  have hlength : 2 < (Nat.toDigits 10 exponent.natAbs).length →
      10 ^ ((Nat.toDigits 10 exponent.natAbs).length - 1) ≤ exponent.natAbs := by
    intro hlt
    by_contra hlow
    have := (Nat.length_toDigits_le_iff (by decide) (by omega)).2 (not_le.1 hlow)
    omega
  have hpos : 0 < (Nat.toDigits 10 exponent.natAbs).length := Nat.length_toDigits_pos
  refine ⟨_, rfl, ?_⟩
  generalize Nat.toDigits 10 exponent.natAbs = digits at *
  split
  · refine ⟨List.forall_mem_cons.2 ⟨rfl, hd⟩, ?_, ?_, ?_⟩
    · rw [← hvalue, Nat.ofDigitChars_cons]
      rfl
    all_goals
      rw [List.length_cons]
      omega
  · exact ⟨hd, hvalue, by omega, hlength⟩

def IsExponent (chars : List Char) (exponent : ℤ) : Prop :=
  (chars = [] ∧ exponent = 0) ∨
    (chars = exponentText exponent ∧ exponent.natAbs < exponentLimit)

/-- Whether characters are decimal digits with an optional fraction and exponent, and stand for a
number. -/
def IsDecimal (chars : List Char) (value : ℚ) : Prop :=
  ∃ whole fraction tail exponent, chars = whole ++ (dotted fraction ++ tail) ∧ whole ≠ [] ∧
    (∀ c ∈ whole ++ fraction, c.isDigit = true) ∧ IsExponent tail exponent ∧
      decimalValue (Nat.ofDigitChars 10 (whole ++ fraction) 0) (exponent - fraction.length) = value

/-- The text of digits stands for them, the first one at its place. -/
theorem isDecimal_digitsText {precision digits : ℕ} {place : ℤ} (hp : 0 < precision)
    (hlt : digits < 10 ^ precision) (hplace : place.natAbs < exponentLimit) :
    IsDecimal (digitsText precision digits place)
      (decimalValue digits (place + 1 - precision)) := by
  obtain ⟨whole, fraction, htext, hlength, hd, hvalue⟩ := exists_digitsText place hp hlt
  refine ⟨whole, trimZeros fraction,
    if IsScientific precision place then exponentText place else [], _, ?_, ?_, ?_, ?_,
    (decimalValue_trimZeros whole fraction _).trans hvalue⟩
  · rw [htext, pointed_eq, List.append_assoc]
  · rw [← List.length_pos_iff, hlength]
    split <;> omega
  · intro c hc
    rcases List.mem_append.1 hc with hc | hc
    · exact hd c (List.mem_append_left _ hc)
    · exact hd c (List.mem_append_right _ (mem_of_mem_trimZeros hc))
  · split
    · exact .inr ⟨rfl, hplace⟩
    · exact .inl ⟨rfl, rfl⟩

open Bytes (isNumberChar)

theorem isNumberChar_of_isDigit {c : Char} (h : c.isDigit = true) : isNumberChar c = true := by
  simp [isNumberChar, Char.isAlphanum, h]

theorem mem_dotted {c : Char} {fraction : List Char} (h : c ∈ dotted fraction) :
    c = '.' ∨ c ∈ fraction := by
  cases fraction with
  | nil => cases h
  | cons d fraction => exact List.mem_cons.1 h

theorem isNumberChar_pointed {whole fraction : List Char}
    (h : ∀ c ∈ whole ++ fraction, isNumberChar c = true) :
    ∀ c ∈ pointed whole fraction, isNumberChar c = true := by
  intro c hc
  obtain ⟨zeros, hzeros⟩ := exists_trimZeros fraction
  rw [hzeros] at h
  rw [pointed_eq, List.mem_append] at hc
  rcases hc with hc | hc
  · exact h c (by simp [hc])
  · rcases mem_dotted hc with rfl | hc
    · rfl
    · exact h c (by simp [hc])

theorem isNumberChar_exponentText (exponent : ℤ) :
    ∀ c ∈ exponentText exponent, isNumberChar c = true := by
  have hd : ∀ c ∈ Nat.toDigits 10 exponent.natAbs, isNumberChar c = true := fun c hc =>
    isNumberChar_of_isDigit (Nat.isDigit_of_mem_toDigits (by decide) (by decide) hc)
  intro c hc
  simp only [exponentText, List.mem_cons] at hc
  rcases hc with rfl | rfl | hc
  · rfl
  · split <;> rfl
  · split at hc
    · rcases List.mem_cons.1 hc with rfl | hc
      · rfl
      · exact hd c hc
    · exact hd c hc

/-- The text of a number is letters, digits, signs and points. -/
theorem isNumberChar_general (precision : ℕ) (n : Number) :
    ∀ c ∈ general precision n, isNumberChar c = true := by
  cases n with
  | nan => simp [general, isNumberChar]
  | infinite negative => cases negative <;> simp [general, isNumberChar]
  | finite negative mantissa exponent =>
    have hbody (precision digits : ℕ) (place : ℤ) :
        ∀ c ∈ digitsText precision digits place, isNumberChar c = true := by
      have hd : ∀ c ∈ Digits.lastChars precision digits, isNumberChar c = true := fun c hc =>
        isNumberChar_of_isDigit (Digits.isDigit_lastChars c hc)
      intro c hc
      rw [digitsText, Digits.chars_eq_lastChars] at hc
      generalize Digits.lastChars precision digits = chars at *
      have htake (n : ℕ) : chars.take n ++ chars.drop n = chars := List.take_append_drop n chars
      split at hc
      · rcases List.mem_append.1 hc with hc | hc
        · exact isNumberChar_pointed (by rwa [htake]) c hc
        · exact isNumberChar_exponentText place c hc
      · split at hc
        · refine isNumberChar_pointed ?_ c hc
          intro c hc
          rcases List.mem_append.1 hc with hc | hc
          · obtain rfl := List.mem_singleton.1 hc
            rfl
          · rcases List.mem_append.1 hc with hc | hc
            · obtain rfl := List.eq_of_mem_replicate hc
              rfl
            · exact hd c hc
        · exact isNumberChar_pointed (by rwa [htake]) c hc
    have hchars : ∀ c ∈ (if mantissa = 0 then ['0'] else
        digitsText (max precision 1)
          (significant (max precision 1) (binaryQuotient mantissa exponent)).1
          (significant (max precision 1) (binaryQuotient mantissa exponent)).2),
        isNumberChar c = true := by
      split
      · simp [isNumberChar]
      · exact hbody _ _ _
    intro c hc
    rw [general] at hc
    simp only at hc
    split at hc
    · rcases List.mem_cons.1 hc with rfl | hc
      · rfl
      · exact hchars c hc
    · exact hchars c hc

end Decimal

theorem not_mem_general {b : UInt8} (hb : Bytes.isMark b = true) (precision : ℕ)
    (n : Decimal.Number) : b ∉ Bytes.ofChars (Decimal.general precision n) := by
  intro hm
  obtain ⟨c, hc, hm⟩ := List.mem_flatMap.1 hm
  have := Bytes.not_mark_of_isNumberChar (Decimal.isNumberChar_general precision n c hc) hm
  simp [hb] at this

end RecordStore
