import RecordStore.Bytes

/-!
# Decimal digits

A number is put together from its digits and taken apart into them by halves, so that numbers of
very many digits cost little more than their size.

## Main definitions

* `Digits.value` — the number that digits denote.
* `Digits.cappedValue` — the same as far as a limit.
* `Digits.chars` — the last digits of a number.

## Main statements

* `Digits.value_eq_foldl`, `Digits.chars_eq_lastChars` — halving changes nothing.
* `Digits.cappedValue_cases`, `Digits.cappedValue_eq` — the limit changes nothing below it.
-/

namespace RecordStore.Decimal.Digits

/-! ## Reading -/

def push (value : Nat) (digit : UInt8) : Nat := 10 * value + (digit.toNat - 0x30)

def value (digits : Bytes) : Nat :=
  if 32 < digits.length then
    let low := digits.length / 2
    let high := digits.length - low
    value (digits.take high) * Nat.pow 10 low + value (digits.drop high)
  else digits.foldl push 0
termination_by digits.length
decreasing_by
  all_goals simp only [List.length_take, List.length_drop]; omega

theorem foldl_push (n : Nat) (digits : Bytes) :
    digits.foldl push n = n * Nat.pow 10 digits.length + digits.foldl push 0 := by
  induction digits generalizing n with
  | nil => simp
  | cons b rest ih =>
    simp only [List.foldl_cons, List.length_cons]
    rw [ih (push n b), ih (push 0 b)]
    simp only [push, Nat.pow_eq, Nat.pow_succ, Nat.add_mul, Nat.mul_zero, Nat.zero_add]
    rw [Nat.mul_comm 10 n, Nat.mul_assoc, Nat.mul_comm 10 (10 ^ rest.length), Nat.add_assoc]

theorem value_eq_foldl (digits : Bytes) : value digits = digits.foldl push 0 := by
  fun_induction value digits with
  | case1 digits h low high ih₁ ih₂ =>
    have hl : (digits.drop high).length = low := by
      simp only [List.length_drop, high, low]
      omega
    conv => rhs; rw [← List.take_append_drop high digits, List.foldl_append, foldl_push, hl]
    rw [ih₁, ih₂]
  | case2 => rfl

def pushBelow (limit value : Nat) (digit : UInt8) : Nat :=
  if value < limit then push value digit else value

/-- The number that digits denote. Once it has reached the limit, the digits left do not
count. -/
def cappedValue (limit : Nat) (digits : Bytes) : Nat := digits.foldl (pushBelow limit) 0

theorem cappedValue_cases (limit : Nat) (digits : Bytes) :
    cappedValue limit digits = value digits ∨
      limit ≤ cappedValue limit digits ∧ cappedValue limit digits ≤ value digits := by
  rw [value_eq_foldl, cappedValue]
  suffices h : ∀ a b, a = b ∨ limit ≤ a ∧ a ≤ b →
      digits.foldl (pushBelow limit) a = digits.foldl push b ∨
        limit ≤ digits.foldl (pushBelow limit) a ∧
          digits.foldl (pushBelow limit) a ≤ digits.foldl push b from
    h 0 0 (.inl rfl)
  induction digits with
  | nil => exact fun _ _ h => h
  | cons digit rest ih =>
    intro a b h
    refine ih _ _ ?_
    have hb : b ≤ push b digit := by simp only [push]; omega
    rw [pushBelow]
    split
    · rcases h with rfl | h
      · exact .inl rfl
      · omega
    · rcases h with rfl | h <;> omega

theorem cappedValue_eq {limit : Nat} {digits : Bytes} (h : value digits < limit) :
    cappedValue limit digits = value digits := by
  rcases cappedValue_cases limit digits with h' | h' <;> omega

/-! ## Writing -/

def lastChars : (width n : Nat) → List Char
  | 0, _ => []
  | width + 1, n => lastChars width (n / 10) ++ [Nat.digitChar (n % 10)]

def lastCharsOnto (tail : List Char) : (width n : Nat) → List Char
  | 0, _ => tail
  | width + 1, n => lastCharsOnto (Nat.digitChar (n % 10) :: tail) width (n / 10)

theorem lastCharsOnto_eq (tail : List Char) (width n : Nat) :
    lastCharsOnto tail width n = lastChars width n ++ tail := by
  induction width generalizing tail n with
  | zero => rfl
  | succ width ih => simp [lastCharsOnto, lastChars, ih]

def chars (width n : Nat) : List Char :=
  if 32 < width then
    let low := width / 2
    let part := Nat.pow 10 low
    chars (width - low) (n / part) ++ chars low (n % part)
  else lastCharsOnto [] width n
termination_by width

@[simp] theorem length_lastChars (width n : Nat) : (lastChars width n).length = width := by
  induction width generalizing n with
  | zero => rfl
  | succ width ih => simp [lastChars, ih]

theorem lastChars_add (high low n : Nat) :
    lastChars (high + low) n =
      lastChars high (n / Nat.pow 10 low) ++ lastChars low (n % Nat.pow 10 low) := by
  induction low generalizing n with
  | zero => simp [lastChars]
  | succ low ih =>
    have hd : n / 10 / 10 ^ low = n / 10 ^ (low + 1) := by
      rw [Nat.div_div_eq_div_mul, Nat.pow_succ, Nat.mul_comm]
    have hm : n / 10 % 10 ^ low = n % 10 ^ (low + 1) / 10 := by
      rw [Nat.pow_succ, Nat.mul_comm (10 ^ low) 10, Nat.mod_mul_right_div_self]
    have hr : n % 10 = n % 10 ^ (low + 1) % 10 := by
      rw [Nat.pow_succ, Nat.mul_comm (10 ^ low) 10, Nat.mod_mul_right_mod]
    simp only [Nat.pow_eq] at ih ⊢
    rw [← Nat.add_assoc]
    simp only [lastChars]
    rw [ih, hd, hm, ← hr, List.append_assoc]

theorem chars_eq_lastChars (width n : Nat) : chars width n = lastChars width n := by
  fun_induction chars width n with
  | case1 width n h low part ih₁ ih₂ =>
    have hw : width - low + low = width := by omega
    rw [ih₁, ih₂, ← lastChars_add, hw]
  | case2 => rw [lastCharsOnto_eq, List.append_nil]

end RecordStore.Decimal.Digits
