import RecordStore.Bytes

/-!
# Sixteen-bit code units as text

A code unit is written like a character of the same number, so surrogates get a three-byte form
of their own. Reading never loses its place: a malformed sequence gives the replacement unit.

## Main definitions

* `Unit16.encode` — the bytes of one unit.
* `Unit16.decode?` — one unit and how many bytes it takes.
-/

namespace RecordStore.Unit16

/-- The unit that stands for a malformed sequence. -/
def replacement : UInt16 := 0xfffd

def encode (u : UInt16) : Bytes :=
  if u < 0x80 then [u.toUInt8]
  else if u < 0x800 then
    [(0xc0 : UInt8) ||| (u >>> 6).toUInt8, (0x80 : UInt8) ||| (u &&& 0x3f).toUInt8]
  else [(0xe0 : UInt8) ||| (u >>> 12).toUInt8, (0x80 : UInt8) ||| ((u >>> 6) &&& 0x3f).toUInt8,
    (0x80 : UInt8) ||| (u &&& 0x3f).toUInt8]

def isContinuation (b : UInt8) : Bool := b &&& 0xc0 = 0x80

def payload (b : UInt8) : UInt16 := (b &&& 0x3f).toUInt16

/-- How many bytes are consumed where `count` continuations are due: up to the first that is none,
which is consumed as well. Nothing if the input ends before that. -/
def continuations? : (count : Nat) → Bytes → Option Nat
  | 0, _ => some 0
  | _ + 1, [] => none
  | count + 1, b :: rest =>
    if isContinuation b then (continuations? count rest).map (· + 1) else some 1

/-- The first unit of the bytes and how many bytes it takes; `none` if the input ends too early.
A byte in the place of a continuation is consumed with the sequence it breaks. -/
def decode? : Bytes → Option (UInt16 × Nat)
  | [] => none
  | lead :: rest =>
    if lead < 0x80 then some (lead.toUInt16, 1)
    else if lead < 0xc2 then some (replacement, 1)
    else if lead < 0xe0 then
      match rest with
      | [] => none
      | b :: _ =>
        if isContinuation b then some ((lead &&& 0x1f).toUInt16 <<< 6 ||| payload b, 2)
        else some (replacement, 2)
    else if lead < 0xf0 then
      match rest with
      | [] => none
      | b :: rest =>
        if isContinuation b then
          match rest with
          | [] => none
          | c :: _ =>
            if isContinuation c then
              let u := (lead &&& 0x0f).toUInt16 <<< 12 ||| payload b <<< 6 ||| payload c
              some (if u < 0x800 then replacement else u, 3)
            else some (replacement, 3)
        else some (replacement, 2)
    else if lead < 0xf8 then (continuations? 3 rest).map fun n => (replacement, n + 1)
    else some (replacement, 1)

theorem continuations?_le {count n : Nat} {bytes : Bytes}
    (h : continuations? count bytes = some n) : n ≤ bytes.length := by
  induction count generalizing bytes n with
  | zero =>
    simp only [continuations?, Option.some.injEq] at h
    omega
  | succ count ih =>
    cases bytes with
    | nil => simp [continuations?] at h
    | cons b tail =>
      simp only [continuations?] at h
      split at h
      · obtain ⟨m, hm, rfl⟩ := Option.map_eq_some_iff.1 h
        exact Nat.succ_le_succ (ih hm)
      · simp_all only [Option.some.injEq, List.length_cons]
        omega

/-- Every unit read takes at least one byte, and none behind the end. -/
theorem decode?_bounds {bytes : Bytes} {u : UInt16} {n : Nat} (h : decode? bytes = some (u, n)) :
    0 < n ∧ n ≤ bytes.length := by
  cases bytes with
  | nil => simp [decode?] at h
  | cons lead tail =>
    have skip {n : Nat} (hs : continuations? 3 tail = some n) := continuations?_le hs
    simp only [decode?] at h
    grind [Option.map_eq_some_iff]

end RecordStore.Unit16
