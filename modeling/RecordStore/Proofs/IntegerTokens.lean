import Mathlib.Data.List.TakeWhile
import Mathlib.Data.Nat.Digits.Defs
import RecordStore.Codec.Number

/-!
# Integers in front of a text

Reading an integer passes the blanks and takes a sign and all digits behind it, however many there
are. The number that they denote is compared with the bounds as it is, since one that is cut off at
a limit beyond both bounds is beyond them too.

## Main definitions

* `Decimal.Digits.denoted` — the number that digits denote, by powers of ten.
* `IntegerToken` — the texts of integers with their numbers.

## Main statements

* `exists_token_of_scanInteger`, `IntegerToken.exists_scanInteger` — what is scanned are tokens.
* `IntegerText.value_eq_number` — cutting a number off at a limit does not matter within bounds.
* `readInteger_eq_ok_iff`, `readInteger_of_token` — when an integer is read.
* `eq_skipBlanks_of_readInteger_error` — where a failure leaves the cursor.
-/

namespace RecordStore

/-! ## Digits -/

namespace Decimal.Digits

/-- The number that digits denote in base ten, where the last one counts least. -/
def denoted (digits : Bytes) : ℕ := Nat.ofDigits 10 (digits.reverse.map fun b => b.toNat - 0x30)

theorem value_eq_denoted (digits : Bytes) : value digits = denoted digits := by
  rw [value_eq_foldl, denoted, Nat.ofDigits_eq_foldr, List.foldr_map, List.foldr_reverse]
  congr 1
  funext n b
  simp only [push, Nat.cast_id]
  omega

theorem denoted_lt {digits : Bytes} (h : ∀ b ∈ digits, Bytes.isDigit b = true) :
    denoted digits < 10 ^ digits.length := by
  have hlt : ∀ n ∈ digits.reverse.map fun b => b.toNat - 0x30, n < 10 := by
    intro n hn
    obtain ⟨b, hb, rfl⟩ := List.mem_map.1 hn
    have hdigit := h b (List.mem_reverse.1 hb)
    simp only [Bytes.isDigit, Bool.and_eq_true, decide_eq_true_eq, UInt8.le_iff_toNat_le] at hdigit
    exact (Nat.sub_lt_iff_lt_add hdigit.1).2 (Nat.lt_succ_of_le hdigit.2)
  simpa [denoted] using Nat.ofDigits_lt_base_pow_length (by omega) hlt

end Decimal.Digits

/-! ## Tokens -/

structure Bytes.IsDigits (digits : Bytes) : Prop where
  ne_nil : digits ≠ []
  isDigit : ∀ b ∈ digits, Bytes.isDigit b = true

/-- The text of an integer and its number: digits behind a sign or none. A minus is a sign only
where `signed` says so. -/
inductive IntegerToken (signed : Bool) : Bytes → ℤ → Prop
  | bare {digits : Bytes} (h : digits.IsDigits) :
    IntegerToken signed digits (Decimal.Digits.denoted digits)
  | plus {digits : Bytes} (h : digits.IsDigits) :
    IntegerToken signed (0x2b :: digits) (Decimal.Digits.denoted digits)
  | minus {digits : Bytes} (hs : signed = true) (h : digits.IsDigits) :
    IntegerToken signed (0x2d :: digits) (-Decimal.Digits.denoted digits)

namespace IntegerText

def number (t : IntegerText) : ℤ :=
  if t.negative then -Decimal.Digits.denoted t.digits else Decimal.Digits.denoted t.digits

/-- A number that is cut off at a limit is the number, or both have reached the limit. -/
theorem value_cases (t : IntegerText) (limit : ℕ) :
    t.value limit = t.number ∨ limit ≤ (t.value limit).natAbs ∧ limit ≤ t.number.natAbs := by
  have h := Decimal.Digits.cappedValue_cases limit t.digits
  rw [Decimal.Digits.value_eq_denoted] at h
  simp only [value, number]
  split <;> omega

/-- Digits that do not count change nothing for bounds below the limit. -/
theorem value_eq_number {t : IntegerText} {low high : ℤ}
    (h : low ≤ t.number ∧ t.number ≤ high ∨
      low ≤ t.value (max low.natAbs high.natAbs + 1) ∧
        t.value (max low.natAbs high.natAbs + 1) ≤ high) :
    t.value (max low.natAbs high.natAbs + 1) = t.number := by
  have := t.value_cases (max low.natAbs high.natAbs + 1)
  omega

end IntegerText

theorem takeWhile_digits {digits rest : Bytes} (h : ∀ b ∈ digits, Bytes.isDigit b = true)
    (hr : ∀ b ∈ rest.head?, Bytes.isDigit b = false) :
    (digits ++ rest).takeWhile Bytes.isDigit = digits := by
  rw [List.takeWhile_append_of_pos h]
  cases rest <;> simp_all

theorem splitSign_digits {digits : Bytes} (h : digits.IsDigits) (rest : Bytes) :
    splitSign (digits ++ rest) = (none, digits ++ rest) := by
  obtain ⟨b, digits, rfl⟩ := List.exists_cons_of_ne_nil h.ne_nil
  have hb := h.isDigit b List.mem_cons_self
  have hminus : b ≠ 0x2d := by
    rintro rfl
    exact absurd hb (by decide)
  have hplus : b ≠ 0x2b := by
    rintro rfl
    exact absurd hb (by decide)
  rw [List.cons_append]
  unfold splitSign
  split <;> simp_all

theorem scanInteger_signed {signed : Bool} (negative : Bool) (hs : negative = true → signed = true)
    {digits rest : Bytes} (h : digits.IsDigits) (hr : ∀ b ∈ rest.head?, Bytes.isDigit b = false) :
    scanInteger signed ((if negative then 0x2d else 0x2b) :: (digits ++ rest)) =
      .ok ⟨negative, digits, digits.length + 1⟩ := by
  have hsplit : splitSign ((if negative then 0x2d else 0x2b) :: (digits ++ rest)) =
      (some negative, digits ++ rest) := by cases negative <;> rfl
  simpa [scanInteger, hsplit, takeWhile_digits h.isDigit hr, h.ne_nil, Nat.add_comm] using hs

/-- What stands in front of the body behind a sign. -/
theorem splitSign_cases (bytes : Bytes) :
    (∃ body, bytes = 0x2d :: body ∧ splitSign bytes = (some true, body)) ∨
      (∃ body, bytes = 0x2b :: body ∧ splitSign bytes = (some false, body)) ∨
        splitSign bytes = (none, bytes) := by
  fun_cases splitSign bytes <;> simp

/-- The digits in front of a byte string end at its first byte that is none. -/
theorem exists_digits_append {bytes : Bytes} (h : bytes.takeWhile Bytes.isDigit ≠ []) :
    ∃ digits rest, bytes = digits ++ rest ∧ bytes.takeWhile Bytes.isDigit = digits ∧
      digits.IsDigits ∧ ∀ b ∈ rest.head?, Bytes.isDigit b = false := by
  refine ⟨_, bytes.dropWhile Bytes.isDigit, List.takeWhile_append_dropWhile.symm, rfl,
    ⟨h, fun b hb => List.mem_takeWhile_imp hb⟩, ?_⟩
  intro b hb
  have hstop := List.head?_dropWhile_not Bytes.isDigit bytes
  rwa [Option.mem_def.1 hb] at hstop

/-- What is scanned is a token, with all digits that follow its sign. -/
theorem exists_token_of_scanInteger {signed : Bool} {bytes : Bytes} {t : IntegerText}
    (h : scanInteger signed bytes = .ok t) :
    ∃ token rest, bytes = token ++ rest ∧ token.length = t.length ∧
      IntegerToken signed token t.number ∧ ∀ b ∈ rest.head?, Bytes.isDigit b = false := by
  simp only [scanInteger] at h
  split at h
  · cases h
  rename_i hsign
  split at h
  · cases h
  rename_i hempty
  obtain ⟨digits, rest, hbody, htake, hdigits, hr⟩ :=
    exists_digits_append (mt List.isEmpty_iff.2 hempty)
  obtain rfl := Except.ok.inj h
  rw [htake]
  rcases splitSign_cases bytes with ⟨body, rfl, hs⟩ | ⟨body, rfl, hs⟩ | hs
  all_goals
    rw [hs] at hbody hsign ⊢
    dsimp only at hbody
    subst hbody
  · refine ⟨0x2d :: digits, rest, rfl, by simp; omega, ?_, hr⟩
    exact .minus (by simpa using hsign) hdigits
  · exact ⟨0x2b :: digits, rest, rfl, by simp; omega, .plus hdigits, hr⟩
  · exact ⟨digits, rest, rfl, by simp, .bare hdigits, hr⟩

/-- A token is scanned with its number if no digit follows. -/
theorem IntegerToken.exists_scanInteger {signed : Bool} {token rest : Bytes} {n : ℤ}
    (h : IntegerToken signed token n) (hr : ∀ b ∈ rest.head?, Bytes.isDigit b = false) :
    ∃ t, scanInteger signed (token ++ rest) = .ok t ∧ t.number = n ∧ t.length = token.length := by
  cases h with
  | bare h =>
    refine ⟨⟨false, token, token.length⟩, ?_, rfl, rfl⟩
    simp [scanInteger, splitSign_digits h, takeWhile_digits h.isDigit hr, h.ne_nil]
  | plus h => exact ⟨_, scanInteger_signed false (by simp) h hr, rfl, rfl⟩
  | minus hs h => exact ⟨_, scanInteger_signed true (fun _ => hs) h hr, rfl, rfl⟩

/-! ## Blanks -/

namespace Cursor

/-- The blanks in front of a cursor end at the first byte that is none. -/
theorem exists_blanks (c : Cursor) :
    ∃ blanks, c.rest = blanks ++ c.skipBlanks.rest ∧ (∀ b ∈ blanks, Bytes.isBlank b = true) ∧
      (∀ b ∈ c.skipBlanks.rest.head?, Bytes.isBlank b = false) ∧
        c.skipBlanks.position = c.position + blanks.length := by
  refine ⟨c.rest.takeWhile Bytes.isBlank, List.takeWhile_append_dropWhile.symm,
    fun b hb => List.mem_takeWhile_imp hb, ?_, rfl⟩
  intro b hb
  have hstop := List.head?_dropWhile_not Bytes.isBlank c.rest
  rwa [show (c.rest.dropWhile Bytes.isBlank).head? = some b from hb] at hstop

theorem skipBlanks_of_append {c : Cursor} {blanks rest : Bytes} (h : c.rest = blanks ++ rest)
    (hb : ∀ b ∈ blanks, Bytes.isBlank b = true) (hr : ∀ b ∈ rest.head?, Bytes.isBlank b = false) :
    c.skipBlanks = ⟨c.position + blanks.length, rest⟩ := by
  have htake : rest.takeWhile Bytes.isBlank = [] := by cases rest <;> simp_all
  have hdrop : rest.dropWhile Bytes.isBlank = rest := by cases rest <;> simp_all
  simp [skipBlanks, h, List.takeWhile_append_of_pos hb, List.dropWhile_append_of_pos hb, htake,
    hdrop]

end Cursor

theorem IntegerToken.isBlank_head {signed : Bool} {token : Bytes} {n : ℤ}
    (h : IntegerToken signed token n) (rest : Bytes) :
    ∀ b ∈ (token ++ rest).head?, Bytes.isBlank b = false := by
  have hdigit : ∀ b, Bytes.isDigit b = true → Bytes.isBlank b = false := by
    intro b hb
    grind [Bytes.isDigit, Bytes.isBlank]
  cases h with
  | bare h =>
    obtain ⟨b, digits, rfl⟩ := List.exists_cons_of_ne_nil h.ne_nil
    have := hdigit b (h.isDigit b List.mem_cons_self)
    simpa
  | plus h => simp [Bytes.isBlank]
  | minus hs h => simp [Bytes.isBlank]

/-! ## Reading -/

theorem readInteger_eq_ok_iff {code : Char} {signed : Bool} {low high n : ℤ} {c c' : Cursor} :
    readInteger code signed low high c = .ok n c' ↔
      ∃ t, scanInteger signed c.skipBlanks.rest = .ok t ∧ t.number = n ∧
        (low ≤ n ∧ n ≤ high) ∧ c' = c.skipBlanks.advance t.length := by
  simp only [readInteger, Scan.bind_apply, Scan.modify_apply, Scan.get_apply]
  cases ht : scanInteger signed c.skipBlanks.rest with
  | error blamed =>
    simp only
    split <;> simp [Scan.throw_apply]
  | ok t =>
    have hvalue := @t.value_eq_number low high
    simp only
    split
    · simp [Scan.bind_apply, Scan.throw_apply]
      grind
    · simp [Scan.bind_apply, Scan.modify_apply, Scan.pure_apply]
      grind

/-- A failure leaves the cursor behind the blanks. -/
theorem eq_skipBlanks_of_readInteger_error {code : Char} {signed : Bool} {low high : ℤ}
    {c c' : Cursor} {fault : DecodeError}
    (h : readInteger code signed low high c = .error fault c') : c' = c.skipBlanks := by
  simp only [readInteger, Scan.bind_apply, Scan.modify_apply, Scan.get_apply] at h
  cases ht : scanInteger signed c.skipBlanks.rest with
  | error blamed =>
    simp only [ht] at h
    split at h <;> simp_all [Scan.throw_apply]
  | ok t =>
    simp only [ht] at h
    split at h <;>
      simp_all [Scan.bind_apply, Scan.throw_apply, Scan.modify_apply, Scan.pure_apply]

/-- A token within the bounds is read, wherever it ends. -/
theorem readInteger_of_token {code : Char} {signed : Bool} {low high n : ℤ} {c : Cursor}
    {blanks token rest : Bytes} (h : c.rest = blanks ++ token ++ rest)
    (hb : ∀ b ∈ blanks, Bytes.isBlank b = true) (ht : IntegerToken signed token n)
    (hr : ∀ b ∈ rest.head?, Bytes.isDigit b = false) (hn : low ≤ n ∧ n ≤ high) :
    readInteger code signed low high c =
      .ok n ⟨c.position + (blanks ++ token).length, rest⟩ := by
  rw [List.append_assoc] at h
  have hskip := Cursor.skipBlanks_of_append h hb (ht.isBlank_head rest)
  obtain ⟨t, hscan, hnumber, hlength⟩ := ht.exists_scanInteger hr
  rw [readInteger_eq_ok_iff, hskip]
  refine ⟨t, hscan, hnumber, hn, ?_⟩
  simp [Cursor.advance, hlength, Nat.add_assoc]

end RecordStore
