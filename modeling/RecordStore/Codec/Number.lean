import RecordStore.Codec.Error
import RecordStore.Decimal.Binary
import RecordStore.Decimal.Digits

/-!
# Numbers in text

A number is read behind blanks. An integer is a sign and digits; a real number may have a
fraction and an exponent, or be one of the words for infinity and NaN, and the longest token is
taken. A failure leaves the cursor behind the blanks.

## Main definitions

* `readInteger` — an integer within bounds.
* `RealText`, `scanReal?` — the parts of a real number, and the longest one in front.
* `readReal` — the bits of a real number in a binary format.
-/

namespace RecordStore

/-! ## Integers -/

def splitSign : Bytes → Option Bool × Bytes
  | 0x2d :: rest => (some true, rest)
  | 0x2b :: rest => (some false, rest)
  | rest => (none, rest)

structure IntegerText where
  negative : Bool
  digits : Bytes
  /-- The sign and the digits. -/
  length : Nat
  deriving DecidableEq, Repr

/-- The number of a token, with digits that count as far as a limit. -/
def IntegerText.value (t : IntegerText) (limit : Nat) : Int :=
  let magnitude : Int := Decimal.Digits.cappedValue limit t.digits
  if t.negative then -magnitude else magnitude

/-- The integer token in front; failing that, how many bytes to blame. -/
def scanInteger (signed : Bool) (bytes : Bytes) : Except Nat IntegerText :=
  let (sign, rest) := splitSign bytes
  if sign = some true && !signed then .error 1
  else
    let signLength := if sign.isSome then 1 else 0
    let digits := rest.takeWhile Bytes.isDigit
    if digits.isEmpty then .error (signLength + 1)
    else .ok ⟨sign = some true, digits, signLength + digits.length⟩

theorem length_pos_of_scanInteger {signed : Bool} {bytes : Bytes} {token : IntegerText}
    (h : scanInteger signed bytes = .ok token) : 0 < token.length ∧ bytes ≠ [] := by
  cases bytes with
  | nil => simp [scanInteger, splitSign] at h
  | cons b rest =>
    refine ⟨?_, by simp⟩
    simp only [scanInteger] at h
    split at h
    · simp at h
    · split at h
      · simp at h
      · rename_i hd
        simp only [Except.ok.injEq] at h
        rw [← h]
        have := List.length_pos_iff.2 (mt List.isEmpty_iff.2 hd)
        simp only
        omega

/-- Reads an integer from `low` to `high`; a minus sign only where `signed` says so. -/
def readInteger (code : Char) (signed : Bool) (low high : Int) : Scan Int := do
  modify Cursor.skipBlanks
  let rest := (← get).rest
  match scanInteger signed rest with
  | .error blamed =>
    if rest.isEmpty then throw .unexpectedEnd else throw (.badNumber code (rest.take blamed))
  | .ok token =>
    -- no bound is as far from zero as the limit
    let value := token.value (max low.natAbs high.natAbs + 1)
    if value < low || high < value then throw (.badNumber code (rest.take token.length))
    modify (·.advance token.length)
    return value

theorem length_rest_readInteger_lt {code : Char} {signed : Bool} {low high n : Int}
    {c c' : Cursor} (h : readInteger code signed low high c = .ok n c') :
    c'.rest.length < c.rest.length := by
  simp only [readInteger, Scan.bind_apply, Scan.modify_apply, Scan.get_apply] at h
  cases ht : scanInteger signed c.skipBlanks.rest with
  | error =>
    simp only [ht] at h
    split at h <;> simp [Scan.throw_apply] at h
  | ok token =>
    obtain ⟨hp, hn⟩ := length_pos_of_scanInteger ht
    simp only [ht] at h
    split at h
    · simp [Scan.bind_apply, Scan.throw_apply] at h
    · simp only [Scan.bind_apply, Scan.modify_apply, Scan.pure_apply, EStateM.Result.ok.injEq] at h
      rw [← h.2]
      exact Nat.lt_of_lt_of_le (Cursor.length_rest_advance_lt hp hn) c.length_rest_skipBlanks_le

/-! ## Real numbers -/

inductive RealText
  | infinity
  | nan
  /-- The number `digits * 10 ^ exponent`. -/
  | decimal (digits : Nat) (exponent : Int)
  deriving DecidableEq, Repr

def lowerByte (b : UInt8) : UInt8 := if 0x41 ≤ b && b ≤ 0x5a then b + 0x20 else b

def startsWithWord (word : Bytes) (bytes : Bytes) : Bool :=
  (bytes.take word.length).map lowerByte = word

/-- The words for numbers that have no digits. The longer one of a common beginning is first. -/
def realWords : List (Bytes × RealText) :=
  [(Bytes.ofText "infinity", .infinity), (Bytes.ofText "inf", .infinity),
    (Bytes.ofText "nan", .nan)]

/-- A fraction in front: a point and digits, of which there may be none behind `whole` digits.
Gives the digits and the length taken. -/
def scanFraction (whole : Nat) : Bytes → Bytes × Nat
  | 0x2e :: rest =>
    let digits := rest.takeWhile Bytes.isDigit
    if whole + digits.length = 0 then ([], 0) else (digits, digits.length + 1)
  | _ => ([], 0)

/-- An exponent that has reached this number takes no further digits. -/
def exponentLimit : Nat := 0x10000

/-- An exponent in front: a letter, a sign and digits, or nothing. Gives its value and the length
taken. -/
def scanExponent : Bytes → Int × Nat
  | [] => (0, 0)
  | b :: rest =>
    if lowerByte b = 0x65 then
      match scanInteger true rest with
      | .ok token => (token.value exponentLimit, token.length + 1)
      | .error _ => (0, 0)
    else (0, 0)

def scanDecimal? (bytes : Bytes) : Option (RealText × Nat) :=
  let whole := bytes.takeWhile Bytes.isDigit
  let (fraction, fractionLength) := scanFraction whole.length (bytes.drop whole.length)
  if whole.isEmpty && fraction.isEmpty then none
  else
    let length := whole.length + fractionLength
    let (exponent, exponentLength) := scanExponent (bytes.drop length)
    let digits := Decimal.Digits.value (whole ++ fraction)
    some (.decimal digits (exponent - fraction.length), length + exponentLength)

def scanWord? (bytes : Bytes) : Option (RealText × Nat) :=
  (realWords.find? fun entry => startsWithWord entry.1 bytes).map fun entry =>
    (entry.2, entry.1.length)

/-- The sign and the longest real number in front, with their length. No number in digits begins
with a letter, so one that is written as a word is sought only where there is none in digits. -/
def scanReal? (bytes : Bytes) : Option (Bool × RealText × Nat) :=
  let (sign, rest) := splitSign bytes
  let signLength := if sign.isSome then 1 else 0
  ((scanDecimal? rest).or (scanWord? rest)).map fun (number, length) =>
    (sign = some true, number, signLength + length)

theorem length_pos_of_scanFraction {whole : Nat} {bytes : Bytes}
    (h : (scanFraction whole bytes).1 ≠ []) : 0 < (scanFraction whole bytes).2 := by
  unfold scanFraction at h ⊢
  split at h
  · dsimp only at h ⊢
    split at h
    · simp at h
    · rename_i hz
      rw [if_neg hz]
      exact Nat.succ_pos _
  · simp at h

theorem length_pos_of_scanDecimal? {bytes : Bytes} {number : RealText} {length : Nat}
    (h : scanDecimal? bytes = some (number, length)) : 0 < length := by
  simp only [scanDecimal?] at h
  split at h
  · simp at h
  · rename_i hd
    simp only [Option.some.injEq, Prod.mk.injEq] at h
    rw [← h.2]
    by_cases hw : bytes.takeWhile Bytes.isDigit = []
    · simp only [hw, List.isEmpty_nil, Bool.true_and, List.isEmpty_iff] at hd
      have := length_pos_of_scanFraction hd
      simp only [hw]
      omega
    · have := List.length_pos_iff.2 hw
      omega

theorem length_pos_of_scanWord? {bytes : Bytes} {number : RealText} {length : Nat}
    (h : scanWord? bytes = some (number, length)) : 0 < length := by
  obtain ⟨entry, hf, he⟩ := Option.map_eq_some_iff.1 h
  have hw : ∀ word ∈ realWords, 0 < word.1.length := by decide
  have := hw entry (List.mem_of_find?_eq_some hf)
  simp only [Prod.mk.injEq] at he
  omega

theorem length_pos_of_scanReal? {bytes : Bytes} {negative : Bool} {number : RealText}
    {length : Nat} (h : scanReal? bytes = some (negative, number, length)) :
    0 < length ∧ bytes ≠ [] := by
  constructor
  · simp only [scanReal?, Option.map_eq_some_iff, Prod.exists, Prod.mk.injEq,
      Option.or_eq_some_iff] at h
    obtain ⟨number', length', ht, -, -, rfl⟩ := h
    rcases ht with ht | ⟨-, ht⟩
    · exact Nat.add_pos_right _ (length_pos_of_scanDecimal? ht)
    · exact Nat.add_pos_right _ (length_pos_of_scanWord? ht)
  · rintro rfl
    simp [show scanReal? [] = none by decide] at h

def readRealText (code : Char) : Scan (Bool × RealText × Bytes) := do
  modify Cursor.skipBlanks
  let rest := (← get).rest
  match scanReal? rest with
  | some (negative, number, length) =>
    modify (·.advance length)
    return (negative, number, rest.take length)
  | none =>
    if rest.isEmpty then throw .unexpectedEnd
    let signLength := if (splitSign rest).1.isSome then 1 else 0
    throw (.badNumber code (rest.take (signLength + 1)))

/-- The bits of a real number without its sign; `none` if digits denote more than the greatest
number of the format. -/
def RealText.bits? (format : Decimal.BinaryFormat) : RealText → Option Nat
  | infinity => some format.infinity
  | nan => some format.quietNan
  | decimal digits exponent =>
    let bits := format.ofDecimal digits exponent
    if bits = format.infinity then none else some bits

def readReal (code : Char) (format : Decimal.BinaryFormat) : Scan Nat := do
  let (negative, number, token) ← readRealText code
  match number.bits? format with
  | some bits => return if negative then format.signBit + bits else bits
  | none => throw (.badNumber code token)

theorem length_rest_readRealText_lt {code : Char} {read : Bool × RealText × Bytes}
    {c c' : Cursor} (h : readRealText code c = .ok read c') : c'.rest.length < c.rest.length := by
  simp only [readRealText, Scan.bind_apply, Scan.modify_apply, Scan.get_apply] at h
  cases ht : scanReal? c.skipBlanks.rest with
  | none =>
    simp only [ht] at h
    split at h <;> simp [Scan.bind_apply, Scan.throw_apply] at h
  | some token =>
    obtain ⟨negative, number, length⟩ := token
    obtain ⟨hp, hn⟩ := length_pos_of_scanReal? ht
    simp only [ht, Scan.bind_apply, Scan.modify_apply, Scan.pure_apply,
      EStateM.Result.ok.injEq] at h
    rw [← h.2]
    exact Nat.lt_of_lt_of_le (Cursor.length_rest_advance_lt hp hn) c.length_rest_skipBlanks_le

theorem length_rest_readReal_lt {code : Char} {format : Decimal.BinaryFormat} {bits : Nat}
    {c c' : Cursor} (h : readReal code format c = .ok bits c') :
    c'.rest.length < c.rest.length := by
  simp only [readReal, Scan.bind_apply] at h
  split at h
  · rename_i read c'' hr
    obtain ⟨negative, number, token⟩ := read
    have := length_rest_readRealText_lt hr
    cases hb : number.bits? format with
    | none => simp [hb, Scan.throw_apply] at h
    | some bits =>
      simp only [hb, Scan.pure_apply, EStateM.Result.ok.injEq] at h
      rwa [← h.2]
  · simp at h

end RecordStore
