/-!
# Byte strings

A byte string is a list of bytes; byte strings are compared lexicographically. This module holds
little-endian numbers and the search for a byte string inside another.

## Main definitions

* `Bytes.ofNat`, `Bytes.toNat` — fixed-width little-endian numbers.
* `Bytes.cut?`, `Bytes.find?` — the first occurrence of a needle.
-/

namespace RecordStore

abbrev Bytes := List UInt8

namespace Bytes

def ofChars (chars : List Char) : Bytes := chars.flatMap String.utf8EncodeChar

def ofText (text : String) : Bytes := ofChars text.toList

/-! ## Little-endian numbers -/

/-- The lowest `width` bytes of `n`, least significant first. -/
def ofNat : (width n : Nat) → Bytes
  | 0, _ => []
  | width + 1, n => UInt8.ofNat (n % 256) :: ofNat width (n / 256)

def toNat : Bytes → Nat
  | [] => 0
  | b :: rest => b.toNat + 256 * toNat rest

@[simp] theorem length_ofNat (width n : Nat) : (ofNat width n).length = width := by
  induction width generalizing n with
  | zero => rfl
  | succ width ih => simp [ofNat, ih]

theorem toNat_lt (bytes : Bytes) : bytes.toNat < Nat.pow 256 bytes.length := by
  induction bytes with
  | nil => simp [toNat]
  | cons b rest ih =>
    have := b.toNat_lt
    simp only [Nat.pow_eq, toNat, List.length_cons, Nat.pow_succ] at ih ⊢
    omega

/-- Writing `n` in `width` bytes keeps it modulo the numbers that fit. -/
theorem toNat_ofNat (width n : Nat) : (ofNat width n).toNat = n % Nat.pow 256 width := by
  induction width generalizing n with
  | zero => simp only [ofNat, toNat, Nat.pow, Nat.mod_one]
  | succ width ih =>
    simp only [ofNat, toNat, ih, Nat.pow_eq, Nat.pow_succ, Nat.mul_comm (256 ^ width) 256,
      Nat.mod_mul]
    have : (UInt8.ofNat (n % 256)).toNat = n % 256 := by simp
    omega

def words : Bytes → List Nat
  | a :: b :: c :: d :: e :: f :: g :: h :: rest => toNat [a, b, c, d, e, f, g, h] :: words rest
  | [] => []
  | rest => [toNat rest]

/-! ## Search -/

def digestBase : UInt64 := 0x100000001b3

/-- Goes on with the digest of a byte string, which is its value as digits of a large base modulo
the numbers of 64 bits. -/
def digestFrom (digest : UInt64) (bytes : Bytes) : UInt64 :=
  bytes.foldl (fun digest b => digest * digestBase + b.toUInt64) digest

/-- The digest of a byte string; equal byte strings have equal digests. -/
def digest (bytes : Bytes) : UInt64 := digestFrom 0 bytes

def place (bytes : Bytes) : UInt64 := bytes.foldl (fun place _ => place * digestBase) 1

theorem place_from (start : UInt64) (bytes : Bytes) :
    bytes.foldl (fun place _ => place * digestBase) start = start * place bytes := by
  induction bytes generalizing start with
  | nil => simp [place]
  | cons b rest ih =>
    simp only [place, List.foldl_cons]
    rw [ih, ih (1 * digestBase)]
    grind

theorem digestFrom_eq (start : UInt64) (bytes : Bytes) :
    digestFrom start bytes = start * place bytes + digest bytes := by
  induction bytes generalizing start with
  | nil => simp [digestFrom, digest, place]
  | cons b rest ih =>
    have h : place (b :: rest) = digestBase * place rest := by
      simp only [place, List.foldl_cons]
      rw [place_from]
      simp [place]
    simp only [digest, digestFrom, List.foldl_cons] at ih ⊢
    rw [ih, ih (0 * digestBase + b.toUInt64), h]
    grind

theorem digest_concat (b a : UInt8) (window : Bytes) :
    digest (window ++ [a]) =
      digest (b :: window) * digestBase + a.toUInt64 - b.toUInt64 * place (b :: window) := by
  have h : place (b :: window) = digestBase * place window := by
    simp only [place, List.foldl_cons]
    rw [place_from]
    simp [place]
  have hb : digest (b :: window) = b.toUInt64 * place window + digest window := by
    rw [← digestFrom_eq]
    simp [digest, digestFrom]
  have ha : digest (window ++ [a]) = digest window * digestBase + a.toUInt64 := by
    simp [digest, digestFrom]
  rw [ha, hb, h]
  grind

/-- The offset of the first occurrence of a needle, counted from `offset` at the start of `hay`.
Here `current` is the digest of as many bytes of `hay` as the needle has, and `ahead` is what
follows these. The needle is compared only where its digest is met. -/
def findFrom? (needle : Bytes) (wanted top : UInt64) (offset : Nat) (current : UInt64)
    (hay ahead : Bytes) : Option Nat :=
  if current = wanted && needle.isPrefixOf hay then some offset
  else
    match hay, ahead with
    | b :: rest, a :: ahead =>
      findFrom? needle wanted top (offset + 1)
        (current * digestBase + a.toUInt64 - b.toUInt64 * top) rest ahead
    | _, _ => none

def fits : (needle hay : Bytes) → Bool
  | [], _ => true
  | _ :: _, [] => false
  | _ :: needle, _ :: hay => fits needle hay

/-- The offset of the first occurrence of `needle`; the empty needle occurs at once. -/
def find? (needle hay : Bytes) : Option Nat :=
  if fits needle hay then
    findFrom? needle (digest needle) (place needle) 0 (digest (hay.take needle.length)) hay
      (hay.drop needle.length)
  else none

theorem fits_iff {needle hay : Bytes} : fits needle hay = true ↔ needle.length ≤ hay.length := by
  fun_induction fits needle hay <;> simp_all

def cut? (needle hay : Bytes) : Option (Bytes × Bytes) :=
  (find? needle hay).map fun offset => (hay.take offset, hay.drop (offset + needle.length))

theorem findFrom?_of_met {needle hay : Bytes} {wanted top current : UInt64} {offset : Nat}
    {ahead : Bytes} (h : (current = wanted && needle.isPrefixOf hay) = true) :
    findFrom? needle wanted top offset current hay ahead = some offset := by
  unfold findFrom?
  rw [if_pos h]

theorem findFrom?_nil {needle hay : Bytes} {wanted top current : UInt64} {offset : Nat}
    (h : ¬needle.isPrefixOf hay) :
    findFrom? needle wanted top offset current hay [] = none := by
  unfold findFrom?
  rw [if_neg (by simp [h])]
  cases hay <;> rfl

theorem findFrom?_cons {needle rest ahead : Bytes} {wanted top current : UInt64} {offset : Nat}
    {b a : UInt8} (h : ¬needle.isPrefixOf (b :: rest)) :
    findFrom? needle wanted top offset current (b :: rest) (a :: ahead) =
      findFrom? needle wanted top (offset + 1)
        (current * digestBase + a.toUInt64 - b.toUInt64 * top) rest ahead := by
  rw [findFrom?, if_neg (by simp [h])]

theorem findFrom?_succ (needle : Bytes) (wanted top : UInt64) (offset : Nat) (current : UInt64)
    (hay ahead : Bytes) :
    findFrom? needle wanted top (offset + 1) current hay ahead =
      (findFrom? needle wanted top offset current hay ahead).map (· + 1) := by
  induction hay generalizing offset current ahead with
  | nil =>
    unfold findFrom?
    split <;> simp
  | cons b rest ih =>
    unfold findFrom?
    split
    · simp
    · cases ahead with
      | nil => simp
      | cons a ahead => exact ih ..

theorem find?_nil (needle : Bytes) : find? needle [] = if needle.isEmpty then some 0 else none := by
  cases needle <;> simp [find?, findFrom?, fits]

theorem place_congr {a b : Bytes} (h : a.length = b.length) : place a = place b := by
  induction a generalizing b with
  | nil => cases b <;> simp_all
  | cons _ a ih =>
    cases b with
    | nil => simp at h
    | cons _ b =>
      simp only [place, List.foldl_cons]
      rw [place_from, place_from, ih (Nat.succ.inj h)]

/-- The first occurrence is in front or behind the first byte. -/
theorem find?_cons (needle : Bytes) (b : UInt8) (rest : Bytes) :
    find? needle (b :: rest) =
      if needle.isPrefixOf (b :: rest) then some 0 else (find? needle rest).map (· + 1) := by
  by_cases hp : needle.isPrefixOf (b :: rest)
  · obtain ⟨tail, ht⟩ := List.isPrefixOf_iff_prefix.1 hp
    have hf : fits needle (b :: rest) := fits_iff.2 (List.isPrefixOf_iff_prefix.1 hp).length_le
    rw [if_pos hp, find?, if_pos hf]
    exact findFrom?_of_met (by simp [← ht])
  · rw [if_neg hp, find?]
    obtain ⟨n, hn⟩ : ∃ n, needle.length = n + 1 := by
      cases needle with
      | nil => simp at hp
      | cons _ needle => exact ⟨needle.length, rfl⟩
    cases hd : (b :: rest).drop needle.length with
    | nil =>
      have hl : rest.length + 1 ≤ needle.length := by simpa using List.drop_eq_nil_iff.1 hd
      have hr : rest.drop needle.length = [] := List.drop_eq_nil_iff.2 (by omega)
      have hq : ¬needle.isPrefixOf rest := fun h => by
        have := (List.isPrefixOf_iff_prefix.1 h).length_le
        omega
      rw [findFrom?_nil hp, find?, hr, findFrom?_nil hq]
      simp
    | cons a ahead =>
      rw [hn, List.drop_succ_cons] at hd
      have hr : rest.drop needle.length = ahead := by
        rw [hn, ← List.tail_drop, hd, List.tail_cons]
      have hw : rest.take needle.length = rest.take n ++ [a] := by
        rw [hn, List.take_add_one, ← List.head?_drop, hd]
        rfl
      have hc : needle.length ≤ rest.length := by
        have := congrArg List.length hd
        simp at this
        omega
      have ht : place needle = place (b :: rest.take n) :=
        place_congr (by simp; omega)
      rw [findFrom?_cons hp, if_pos (fits_iff.2 (Nat.le_succ_of_le hc)), find?,
        if_pos (fits_iff.2 hc), hr, hw, digest_concat b a, ← ht, ← findFrom?_succ, hn,
        List.take_succ_cons]

theorem cut?_nil (needle : Bytes) :
    cut? needle [] = if needle.isEmpty then some ([], []) else none := by
  rw [cut?, find?_nil]
  split <;> simp

theorem cut?_cons (needle : Bytes) (b : UInt8) (rest : Bytes) :
    cut? needle (b :: rest) =
      if needle.isPrefixOf (b :: rest) then some ([], (b :: rest).drop needle.length)
      else (cut? needle rest).map fun (before, after) => (b :: before, after) := by
  rw [cut?, find?_cons]
  split
  · simp
  · rw [cut?, Option.map_map, Option.map_map]
    congr 1
    funext offset
    simp [Nat.add_right_comm offset 1]

/-- A found occurrence puts the byte string back together. -/
theorem eq_of_cut? {needle hay before after : Bytes}
    (h : cut? needle hay = some (before, after)) : hay = before ++ needle ++ after := by
  induction hay generalizing before with
  | nil =>
    rw [cut?_nil] at h
    cases needle <;> simp_all
  | cons b rest ih =>
    rw [cut?_cons] at h
    split at h
    · rename_i hp
      obtain ⟨t, ht⟩ := List.isPrefixOf_iff_prefix.1 hp
      simp only [Option.some.injEq, Prod.mk.injEq] at h
      obtain ⟨rfl, rfl⟩ := h
      simp [← ht]
    · simp only [Option.map_eq_some_iff, Prod.exists, Prod.mk.injEq] at h
      obtain ⟨before', after', hc, rfl, rfl⟩ := h
      simp [ih hc]

theorem length_lt_of_cut? {needle hay before after : Bytes} (hn : needle ≠ [])
    (h : cut? needle hay = some (before, after)) : after.length < hay.length := by
  have := List.length_pos_iff.2 hn
  rw [eq_of_cut? h]
  simp
  omega

/-- The pieces of `width` bytes, with a shorter one at the end if bytes are left. -/
def pieces (width : Nat) (bytes : Bytes) : List Bytes :=
  if _h : 0 < width ∧ bytes ≠ [] then bytes.take width :: pieces width (bytes.drop width) else []
termination_by bytes.length
decreasing_by
  have := List.length_pos_iff.2 _h.2
  simp
  omega

/-! ## Classes of bytes -/

/-- An ASCII blank: space, tab, line feed, form feed or carriage return. -/
def isBlank (b : UInt8) : Bool :=
  b = 0x20 || b = 0x09 || b = 0x0a || b = 0x0c || b = 0x0d

def isDigit (b : UInt8) : Bool := 0x30 ≤ b && b ≤ 0x39

end Bytes

end RecordStore
