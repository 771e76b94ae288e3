import RecordStore.Codec.Scalar
import RecordStore.Proofs.IntegerTokens

/-!
# Integers that are written and read back

The text of an integer is one token up to the first byte that is no digit. Numbers are written in
letters, digits, signs and points only; the other ASCII bytes are marks.

## Main definitions

* `Bytes.isMark` — an ASCII byte that no number holds.
* `intText` — the text of an integer.

## Main statements

* `integerToken_intText`, `readInteger_intText` — an integer is read back.
* `not_mem_intText` — no byte of an integer is a mark.
-/

namespace RecordStore

/-! ## Digits -/

namespace Bytes

/-- An ASCII byte that no number holds: no letter, digit, sign or point. -/
def isMark (b : UInt8) : Bool :=
  b < 0x80 && !(isDigit b || (0x41 ≤ b && b ≤ 0x5a) || (0x61 ≤ b && b ≤ 0x7a) ||
    b = 0x2b || b = 0x2d || b = 0x2e)

theorem utf8EncodeChar_of_isDigit {c : Char} (h : c.isDigit = true) :
    ∃ b, String.utf8EncodeChar c = [b] ∧ isDigit b = true ∧ b.toNat = c.toNat := by
  simp only [Char.isDigit, Bool.and_eq_true, decide_eq_true_eq] at h
  have hsize : c.utf8Size = 1 := by
    rw [Char.utf8Size_eq_one_iff]
    exact UInt32.le_trans h.2 (by decide)
  have hl : 48 ≤ c.val.toNat := h.1
  have hu : c.val.toNat ≤ 57 := h.2
  have hb : c.val.toUInt8.toNat = c.val.toNat := by
    rw [UInt32.toNat_toUInt8]
    omega
  refine ⟨c.val.toUInt8, String.utf8EncodeChar_eq_singleton hsize, ?_, hb⟩
  simp only [isDigit, Bool.and_eq_true, decide_eq_true_eq, UInt8.le_iff_toNat_le, hb]
  exact ⟨hl, hu⟩

theorem ofChars_digits {chars : List Char} (h : ∀ c ∈ chars, c.isDigit = true) (n : Nat) :
    (∀ b ∈ ofChars chars, isDigit b = true) ∧
      (ofChars chars).foldl Decimal.Digits.push n = Nat.ofDigitChars 10 chars n := by
  induction chars generalizing n with
  | nil => simp [ofChars]
  | cons c chars ih =>
    obtain ⟨hc, h⟩ := List.forall_mem_cons.1 h
    obtain ⟨b, hb, hdigit, hn⟩ := utf8EncodeChar_of_isDigit hc
    have hcons : ofChars (c :: chars) = b :: ofChars chars := by
      simp [ofChars, hb]
    obtain ⟨hdigits, hvalue⟩ := ih h (Decimal.Digits.push n b)
    rw [hcons, List.foldl_cons, hvalue, Nat.ofDigitChars_cons, Decimal.Digits.push, hn]
    exact ⟨by simpa [hdigit] using hdigits, rfl⟩

end Bytes

theorem exists_digits (n : Nat) :
    ∃ digits, Bytes.ofChars (Nat.toDigits 10 n) = digits ∧ digits ≠ [] ∧
      (∀ b ∈ digits, Bytes.isDigit b = true) ∧ Decimal.Digits.value digits = n := by
  have hdigits : ∀ c ∈ Nat.toDigits 10 n, c.isDigit = true := fun c hc =>
    Nat.isDigit_of_mem_toDigits (by decide) (by decide) hc
  obtain ⟨h, hvalue⟩ := Bytes.ofChars_digits hdigits 0
  refine ⟨_, rfl, ?_, h, ?_⟩
  · cases hn : Nat.toDigits 10 n with
    | nil => exact absurd hn Nat.toDigits_ne_nil
    | cons c chars =>
      have := c.utf8Size_pos
      rw [← List.length_pos_iff]
      simp [Bytes.ofChars]
      omega
  · rw [Decimal.Digits.value_eq_foldl, hvalue, Nat.ofDigitChars_ten_toDigits]

def intText (n : Int) : Bytes := Bytes.ofChars (intChars n)

theorem intText_eq (n : Int) :
    intText n = (if n < 0 then [0x2d] else []) ++ Bytes.ofChars (Nat.toDigits 10 n.natAbs) := by
  have hminus : String.utf8EncodeChar '-' = [0x2d] := by decide
  simp only [intText, intChars]
  split <;> simp [Bytes.ofChars, hminus]

/-- The text of a number is a token of it. -/
theorem integerToken_intText {signed : Bool} {n : Int} (hs : n < 0 → signed = true) :
    IntegerToken signed (intText n) n := by
  obtain ⟨digits, hdigits, hne, hall, hvalue⟩ := exists_digits n.natAbs
  rw [Decimal.Digits.value_eq_denoted] at hvalue
  rw [intText_eq, hdigits]
  split
  · rename_i hn
    have htoken := IntegerToken.minus (hs hn) ⟨hne, hall⟩
    rwa [hvalue, show -(n.natAbs : Int) = n by omega] at htoken
  · have htoken := @IntegerToken.bare signed digits ⟨hne, hall⟩
    rwa [hvalue, show (n.natAbs : Int) = n by omega] at htoken

theorem skipBlanks_intText {c : Cursor} {n : Int} {rest : Bytes} (h : c.rest = intText n ++ rest) :
    c.skipBlanks.rest = c.rest := by
  have htoken : IntegerToken true (intText n) n := integerToken_intText fun _ => rfl
  have hempty : c.rest = [] ++ c.rest := rfl
  rw [Cursor.skipBlanks_of_append hempty (by simp) (h ▸ htoken.isBlank_head rest)]

/-- A number within the bounds is read back. -/
theorem readInteger_intText (code : Char) {signed : Bool} {low high n : Int} {c : Cursor}
    {rest : Bytes} (hs : n < 0 → signed = true) (hn : low ≤ n ∧ n ≤ high)
    (hr : ∀ b ∈ rest.head?, Bytes.isDigit b = false) (h : c.rest = intText n ++ rest) :
    readInteger code signed low high c = .ok n ⟨c.position + (intText n).length, rest⟩ := by
  have h : c.rest = [] ++ intText n ++ rest := h
  exact readInteger_of_token h (by simp) (integerToken_intText hs) hr hn

theorem not_mem_intText {b : UInt8} (hb : Bytes.isMark b = true) (n : Int) : b ∉ intText n := by
  obtain ⟨digits, hdigits, -, hall, -⟩ := exists_digits n.natAbs
  rw [intText_eq, hdigits]
  have hdigit : Bytes.isDigit b = false := by grind [Bytes.isMark]
  have hminus : b ≠ 0x2d := by grind [Bytes.isMark]
  grind

end RecordStore
