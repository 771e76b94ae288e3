import Mathlib.Tactic.IntervalCases
import RecordStore.Proofs.ParsedSchemas

/-!
# Printed separators

The printed form of a byte string holds a unit for each byte, and each unit is read by itself,
whatever follows. A text is refused at the first hexadecimal escape that is not one, behind units
that are read; an escape that the end of the text cuts short is none.

## Main definitions

* `Escape.IsUnit` — characters that are read together, with the bytes that they stand for.
* `Escape.Spells` — units in a row.

## Main statements

* `Escape.read_print` — what is printed is read back.
* `Escape.read_eq_error_iff` — which texts are refused.
* `unescape_print` — both, for the separators of formats.
-/

namespace RecordStore

namespace Escape

/-! ## Hexadecimal digits -/

def hexDigits : List Char := "0123456789abcdefABCDEF".toList

theorem isSome_hexValue?_iff {c : Char} : (hexValue? c).isSome = true ↔ c ∈ hexDigits := by
  constructor
  · intro h
    have hranges : 48 ≤ c.toNat ∧ c.toNat ≤ 57 ∨ 97 ≤ c.toNat ∧ c.toNat ≤ 102 ∨
        65 ≤ c.toNat ∧ c.toNat ≤ 70 := by
      simp only [hexValue?, Char.le_def, UInt32.le_iff_toNat_le, Bool.and_eq_true,
        decide_eq_true_eq] at h
      split at h
      · exact .inl ‹_›
      · split at h
        · exact .inr (.inl ‹_›)
        · split at h
          · exact .inr (.inr ‹_›)
          · cases h
    rw [← Char.ofNat_toNat c]
    generalize c.toNat = n at hranges
    rcases hranges with ⟨hlow, hhigh⟩ | ⟨hlow, hhigh⟩ | ⟨hlow, hhigh⟩ <;>
      interval_cases n <;> decide
  · have hall : hexDigits.all (fun digit => (hexValue? digit).isSome) = true := by decide
    exact List.all_eq_true.1 hall c

theorem hexValue?_hexDigit {n : Nat} (h : n < 16) : hexValue? (hexDigit n) = some n := by
  revert n
  decide

/-! ## Units -/

/-- Characters that are read together, and the bytes that they stand for. -/
inductive IsUnit : List Char → Bytes → Prop
  | plain {c : Char} (h : c ≠ '\\') : IsUnit [c] (String.utf8EncodeChar c)
  | letter {c : Char} (h : c ≠ 'x') : IsUnit ['\\', c] (letterBytes c)
  | hex {high low : Char} {h l : Nat} (hh : hexValue? high = some h) (hl : hexValue? low = some l) :
    IsUnit ['\\', 'x', high, low] [UInt8.ofNat (16 * h + l)]

inductive Spells : List Char → Bytes → Prop
  | nil : Spells [] []
  | cons {unit rest : List Char} {bytes more : Bytes} (h : IsUnit unit bytes)
    (hr : Spells rest more) : Spells (unit ++ rest) (bytes ++ more)

/-- A unit is read by itself, whatever follows. -/
theorem IsUnit.read_append {unit : List Char} {bytes : Bytes} (h : IsUnit unit bytes)
    (rest : List Char) : read (unit ++ rest) = (read rest).map (bytes ++ ·) := by
  cases h with
  | plain h => simp [read, h]
  | letter h => simp [read, h]
  | hex hh hl => simp [read, hh, hl]

theorem Spells.read_append {front : List Char} {bytes : Bytes} (h : Spells front bytes)
    (rest : List Char) : read (front ++ rest) = (read rest).map (bytes ++ ·) := by
  induction h with
  | nil => cases h : read rest <;> simp [Except.map, h]
  | cons h hr ih =>
    rw [List.append_assoc, h.read_append, ih]
    cases read rest <;> simp [Except.map]

/-! ## Printing -/

theorem encodeChar_of_lt {n : Nat} (h : n < 128) :
    String.utf8EncodeChar (Char.ofNat n) = [UInt8.ofNat n] ∧ (Char.ofNat n = '\\' → n = 0x5c) := by
  revert n
  decide

theorem isUnit_printByte (b : UInt8) : IsUnit (printByte b) [b] := by
  have hb := b.toNat_lt
  unfold printByte
  split_ifs with htab hreturn hfeed hquoted hprintable
  · exact htab ▸ .letter (by decide)
  · exact hreturn ▸ .letter (by decide)
  · exact hfeed ▸ .letter (by decide)
  · simp only [Bool.or_eq_true, decide_eq_true_eq] at hquoted
    rcases hquoted with (rfl | rfl) | rfl <;> exact .letter (by decide)
  · simp only [Bool.and_eq_true, decide_eq_true_eq, UInt8.le_iff_toNat_le] at hprintable
    obtain ⟨hbytes, hslash⟩ := encodeChar_of_lt (Nat.lt_succ_of_le (hprintable.2.trans (by decide)))
    rw [UInt8.ofNat_toNat] at hbytes
    refine hbytes ▸ .plain fun h => hquoted ?_
    obtain rfl : b = 0x5c := UInt8.toNat_inj.1 (hslash h)
    rfl
  · have hunit := IsUnit.hex (hexValue?_hexDigit (by omega : b.toNat / 16 < 16))
      (hexValue?_hexDigit (by omega : b.toNat % 16 < 16))
    rwa [Nat.div_add_mod, UInt8.ofNat_toNat] at hunit

theorem spells_print (bytes : Bytes) : Spells (print bytes).toList bytes := by
  rw [print, String.toList_ofList]
  induction bytes with
  | nil => exact .nil
  | cons b bytes ih => exact .cons (isUnit_printByte b) ih

/-- What is printed is read back. -/
theorem read_print (bytes : Bytes) : read (print bytes).toList = .ok bytes := by
  have h := (spells_print bytes).read_append []
  rwa [List.append_nil, read, Except.map, List.append_nil] at h

/-! ## Refused texts -/

/-- A text is refused exactly if behind units there is a hexadecimal escape of two characters that
are not both digits. -/
theorem read_eq_error_iff {text : List Char} {high low : Char} :
    read text = .error (high, low) ↔
      ∃ front bytes rest, Spells front bytes ∧ text = front ++ '\\' :: 'x' :: high :: low :: rest ∧
        ¬(high ∈ hexDigits ∧ low ∈ hexDigits) := by
  simp only [← isSome_hexValue?_iff]
  constructor
  · intro h
    fun_induction read text with
    | case1 => cases h
    | case2 high' low' rest h l hh hl ih =>
      obtain ⟨front, bytes, tail, hfront, rfl, hbad⟩ := ih (map_eq_error.1 h)
      exact ⟨_, _, tail, .cons (.hex hl hh) hfront, rfl, hbad⟩
    | case3 high' low' rest hbad =>
      cases h
      refine ⟨[], [], rest, .nil, rfl, fun ⟨hh, hl⟩ => ?_⟩
      exact hbad _ _ (Option.some_get hh).symm (Option.some_get hl).symm
    | case4 c rest hx ih =>
      obtain ⟨front, bytes, tail, hfront, rfl, hbad⟩ := ih (map_eq_error.1 h)
      have hc : c ≠ 'x' := by
        -- an `x` would have two characters behind it
        rintro rfl
        obtain _ | ⟨_, _ | ⟨_, front⟩⟩ := front <;> exact hx _ _ _ rfl rfl
      exact ⟨_, _, tail, .cons (.letter hc) hfront, rfl, hbad⟩
    | case5 c rest _ hslash ih =>
      obtain ⟨front, bytes, tail, hfront, rfl, hbad⟩ := ih (map_eq_error.1 h)
      have hc : c ≠ '\\' := by
        rintro rfl
        cases front <;> exact hslash _ _ rfl rfl
      exact ⟨_, _, tail, .cons (.plain hc) hfront, rfl, hbad⟩
  · rintro ⟨front, bytes, rest, hfront, rfl, hbad⟩
    rw [hfront.read_append, read]
    cases hh : hexValue? high <;> cases hl : hexValue? low <;> simp_all [Except.map]

end Escape

/-- The printed form of a separator is read back as the separator. Only the empty text stands for
no bytes, and a text is refused exactly if, read from the left, it has a hexadecimal escape of two
characters that are not both digits; the fault names these. -/
theorem unescape_print (bytes : Bytes) (text : List Char) :
    unescape (Escape.print bytes).toList = .ok bytes ∧
      (unescape text = .ok [] ↔ text = []) ∧
      ∀ fault, unescape text = .error fault ↔
        ∃ front spelt high low rest, Escape.Spells front spelt ∧
          text = front ++ '\\' :: 'x' :: high :: low :: rest ∧
          ¬(high ∈ Escape.hexDigits ∧ low ∈ Escape.hexDigits) ∧
          fault = .badEscape high low (String.ofList text) := by
  refine ⟨?_, ⟨fun h => ?_, ?_⟩, fun fault => ?_⟩
  · rw [unescape, mapError_eq_ok]
    exact Escape.read_print bytes
  · by_contra hne
    exact Format.unescape_ne_nil h hne rfl
  · rintro rfl
    rfl
  · simp only [unescape, mapError_eq_error, Prod.exists, Escape.read_eq_error_iff]
    constructor
    · rintro ⟨high, low, ⟨front, spelt, rest, hfront, htext, hbad⟩, rfl⟩
      exact ⟨front, spelt, high, low, rest, hfront, htext, hbad, rfl⟩
    · rintro ⟨front, spelt, high, low, rest, hfront, htext, hbad, rfl⟩
      exact ⟨high, low, ⟨front, spelt, rest, hfront, htext, hbad⟩, rfl⟩

end RecordStore
