import Mathlib.Algebra.GroupWithZero.Nat
import Mathlib.Data.List.Basic
import RecordStore.Proofs.IntegerTexts
import RecordStore.Proofs.RealTexts

/-!
# Scalars that are written and read back

The text of a code unit or of a raw byte is read back whatever follows, the text of a number up to a
mark. A number holds no marks, so that any mark in the text of a scalar that was read has been in
front of the reader.

## Main definitions

* `Scalar.quiet` — the scalar that a text is read back as.

## Main statements

* `Unit16.decode?_encode`, `decodeScalar_encodeScalar` — what is written is read back.
* `decodeScalar_bytes` — the marks in the text of a scalar were read.
* `readInteger_exact` — which integers are read, and where the cursor is left.
-/

namespace RecordStore

/-! ## Code units -/

namespace Unit16

theorem lead_two {a : Nat} (h : a < 32) (ha : 2 ≤ a) :
    ¬(0xc0 : UInt8) ||| UInt8.ofNat a < 0x80 ∧ ¬(0xc0 : UInt8) ||| UInt8.ofNat a < 0xc2 ∧
      (0xc0 : UInt8) ||| UInt8.ofNat a < 0xe0 ∧
        (((0xc0 : UInt8) ||| UInt8.ofNat a) &&& 0x1f).toUInt16 = UInt16.ofNat a := by
  revert ha
  revert a
  decide

theorem lead_three {a : Nat} (h : a < 16) :
    ¬(0xe0 : UInt8) ||| UInt8.ofNat a < 0x80 ∧ ¬(0xe0 : UInt8) ||| UInt8.ofNat a < 0xc2 ∧
      ¬(0xe0 : UInt8) ||| UInt8.ofNat a < 0xe0 ∧ (0xe0 : UInt8) ||| UInt8.ofNat a < 0xf0 ∧
        (((0xe0 : UInt8) ||| UInt8.ofNat a) &&& 0x0f).toUInt16 = UInt16.ofNat a := by
  revert a
  decide

theorem continuation {c : Nat} (h : c < 64) :
    ¬(0x80 : UInt8) ||| UInt8.ofNat c < 0x80 ∧
      isContinuation ((0x80 : UInt8) ||| UInt8.ofNat c) = true ∧
        payload ((0x80 : UInt8) ||| UInt8.ofNat c) = UInt16.ofNat c := by
  revert c
  decide

theorem and_63 (n : Nat) : n &&& 63 = n % 64 := Nat.and_two_pow_sub_one_eq_mod n 6

theorem shiftLeft_or {a c : Nat} (ha : a < 1024) (h : c < 64) :
    UInt16.ofNat a <<< 6 ||| UInt16.ofNat c = UInt16.ofNat (64 * a + c) := by
  apply UInt16.toNat_inj.1
  have ha' : a % 65536 = a := by omega
  have hc : c % 65536 = c := by omega
  have hshift : a <<< 6 = 64 * a := by rw [Nat.shiftLeft_eq, Nat.mul_comm]
  have hlow : a <<< 6 % 65536 = a <<< 6 := by rw [hshift]; omega
  simp only [UInt16.toNat_or, UInt16.toNat_shiftLeft, UInt16.toNat_ofNat', UInt16.toNat_ofNat]
  rw [ha', hc, show 6 % 16 = 6 from rfl, hlow, ← Nat.shiftLeft_add_eq_or_of_lt (by omega), hshift]
  omega

theorem shiftLeft_or_three {a b c : Nat} (ha : a < 16) (hb : b < 64) (hc : c < 64) :
    UInt16.ofNat a <<< 12 ||| UInt16.ofNat b <<< 6 ||| UInt16.ofNat c =
      UInt16.ofNat (4096 * a + 64 * b + c) := by
  have hshift : UInt16.ofNat a <<< 12 = (UInt16.ofNat a <<< 6) <<< 6 := by
    revert a
    decide
  rw [hshift, ← UInt16.shiftLeft_or, shiftLeft_or (by omega) hb, shiftLeft_or (by omega) hc]
  congr 1
  omega

theorem encode_of_lt {u : UInt16} (h : u < 0x80) : encode u = [u.toUInt8] := if_pos h

theorem encode_two {u : UInt16} (h : ¬u < 0x80) (h' : u < 0x800) :
    encode u =
      [(0xc0 : UInt8) ||| UInt8.ofNat (u.toNat / 64),
        (0x80 : UInt8) ||| UInt8.ofNat (u.toNat % 64)] := by
  rw [encode, if_neg h, if_pos h']
  have hhigh : (u >>> 6).toUInt8 = UInt8.ofNat (u.toNat / 64) := by
    apply UInt8.toNat_inj.1
    simp [Nat.shiftRight_eq_div_pow]
  have hlow : (u &&& 0x3f).toUInt8 = UInt8.ofNat (u.toNat % 64) := by
    apply UInt8.toNat_inj.1
    simp [and_63]
    omega
  rw [hhigh, hlow]

theorem encode_three {u : UInt16} (h : ¬u < 0x800) :
    encode u =
      [(0xe0 : UInt8) ||| UInt8.ofNat (u.toNat / 4096),
        (0x80 : UInt8) ||| UInt8.ofNat (u.toNat / 64 % 64),
        (0x80 : UInt8) ||| UInt8.ofNat (u.toNat % 64)] := by
  have h' : ¬u < 0x80 := by
    intro hu
    exact h (UInt16.lt_trans hu (by decide))
  rw [encode, if_neg h', if_neg h]
  have hhigh : (u >>> 12).toUInt8 = UInt8.ofNat (u.toNat / 4096) := by
    apply UInt8.toNat_inj.1
    simp [Nat.shiftRight_eq_div_pow]
  have hmid : (u >>> 6 &&& 0x3f).toUInt8 = UInt8.ofNat (u.toNat / 64 % 64) := by
    apply UInt8.toNat_inj.1
    simp [and_63, Nat.shiftRight_eq_div_pow]
    omega
  have hlow : (u &&& 0x3f).toUInt8 = UInt8.ofNat (u.toNat % 64) := by
    apply UInt8.toNat_inj.1
    simp [and_63]
    omega
  rw [hhigh, hmid, hlow]

/-- A unit is read back, whatever follows. -/
theorem decode?_encode (u : UInt16) (rest : Bytes) :
    decode? (encode u ++ rest) = some (u, (encode u).length) := by
  have hu := u.toNat_lt
  by_cases h : u < 0x80
  · have hlead : u.toUInt8 < 0x80 := by
      rw [UInt16.lt_iff_toNat_lt] at h
      rw [UInt8.lt_iff_toNat_lt, UInt16.toNat_toUInt8]
      exact Nat.lt_of_le_of_lt (Nat.mod_le _ _) h
    have hback : u.toUInt8.toUInt16 = u := by
      rw [UInt16.lt_iff_toNat_lt] at h
      apply UInt16.toNat_inj.1
      rw [UInt8.toNat_toUInt16, UInt16.toNat_toUInt8]
      exact Nat.mod_eq_of_lt (Nat.lt_trans h (by decide))
    simp only [encode_of_lt h, List.singleton_append, decode?, hlead, if_true, hback]
    rfl
  have h₁ : 128 ≤ u.toNat := by simpa [UInt16.lt_iff_toNat_lt] using h
  by_cases h' : u < 0x800
  · have h₂ : u.toNat < 2048 := by simpa [UInt16.lt_iff_toNat_lt] using h'
    obtain ⟨hl₁, hl₂, hl₃, hl⟩ := @lead_two (u.toNat / 64) (by omega) (by omega)
    obtain ⟨-, hc, hp⟩ := @continuation (u.toNat % 64) (by omega)
    have hback : UInt16.ofNat (64 * (u.toNat / 64) + u.toNat % 64) = u := by
      rw [Nat.div_add_mod, UInt16.ofNat_toNat]
    rw [encode_two h h']
    simp only [List.cons_append, List.nil_append, decode?, hl₁, hl₂, hl₃, hc, hl, hp, if_true,
      if_false, shiftLeft_or (Nat.div_lt_of_lt_mul (by omega : u.toNat < 64 * 1024))
        (Nat.mod_lt _ (by decide : 0 < 64)), hback]
    rfl
  · obtain ⟨hl₁, hl₂, hl₃, hl₄, hl⟩ := @lead_three (u.toNat / 4096) (by omega)
    obtain ⟨-, hb, hpb⟩ := @continuation (u.toNat / 64 % 64) (by omega)
    obtain ⟨-, hc, hpc⟩ := @continuation (u.toNat % 64) (by omega)
    have hback : UInt16.ofNat (4096 * (u.toNat / 4096) + 64 * (u.toNat / 64 % 64) +
        u.toNat % 64) = u := by
      have : 4096 * (u.toNat / 4096) + 64 * (u.toNat / 64 % 64) + u.toNat % 64 = u.toNat := by
        omega
      rw [this, UInt16.ofNat_toNat]
    rw [encode_three h']
    simp only [List.cons_append, List.nil_append, decode?, hl₁, hl₂, hl₃, hl₄, hb, hpb, hc, hl,
      hpc, if_true, if_false, shiftLeft_or_three (Nat.div_lt_of_lt_mul
        (by omega : u.toNat < 4096 * 16)) (Nat.mod_lt _ (by decide : 0 < 64))
        (Nat.mod_lt _ (by decide : 0 < 64)), hback, h']
    rfl

theorem mem_encode_of_lt {u : UInt16} {b : UInt8} (hb : b < 0x80) (h : b ∈ encode u) :
    u < 0x80 ∧ b = u.toUInt8 := by
  have hu := u.toNat_lt
  by_cases h₁ : u < 0x80
  · rw [encode_of_lt h₁] at h
    exact ⟨h₁, List.mem_singleton.1 h⟩
  have hn₁ : 128 ≤ u.toNat := by simpa [UInt16.lt_iff_toNat_lt] using h₁
  have hlow := (@continuation (u.toNat % 64) (by omega)).1
  by_cases h₂ : u < 0x800
  · have hn₂ : u.toNat < 2048 := by simpa [UInt16.lt_iff_toNat_lt] using h₂
    have hlead := (@lead_two (u.toNat / 64) (by omega) (by omega)).1
    rw [encode_two h₁ h₂] at h
    grind
  · have hlead := (@lead_three (u.toNat / 4096) (by omega)).1
    have hmid := (@continuation (u.toNat / 64 % 64) (by omega)).1
    rw [encode_three h₂] at h
    grind

theorem le_shiftLeft_or {lead : UInt8} (h : ¬lead < 0xc2) (h' : lead < 0xe0) (u : UInt16) :
    ¬(lead &&& 0x1f).toUInt16 <<< 6 ||| u < 0x80 := by
  have hleads : ∀ n < 30, 0x80 ≤ ((UInt8.ofNat (0xc2 + n) &&& 0x1f).toUInt16 <<< 6).toNat := by
    decide
  have hlow : 0xc2 ≤ lead.toNat := by simpa [UInt8.lt_iff_toNat_lt] using h
  have hhigh : lead.toNat < 0xe0 := by simpa [UInt8.lt_iff_toNat_lt] using h'
  have := hleads (lead.toNat - 0xc2) (by omega)
  rw [Nat.add_sub_cancel' hlow, UInt8.ofNat_toNat] at this
  rw [UInt16.lt_iff_toNat_lt, UInt16.toNat_or, Nat.not_lt]
  exact Nat.le_trans this Nat.left_le_or

theorem eq_cons_of_decode? {bytes : Bytes} {u : UInt16} {n : Nat} (h : decode? bytes = some (u, n))
    (hu : u < 0x80) : ∃ rest, bytes = u.toUInt8 :: rest := by
  cases bytes with
  | nil => cases h
  | cons lead rest =>
    have hreplacement : ¬replacement < 0x80 := by decide
    have hthree (v : UInt16) : ¬(if v < 0x800 then replacement else v) < 0x80 := by
      split
      · exact hreplacement
      · rename_i hv
        intro hlt
        exact hv (UInt16.lt_trans hlt (by decide))
    by_cases hlead : lead < 0x80
    · simp only [decode?, hlead, if_true, Option.some.injEq, Prod.mk.injEq] at h
      exact ⟨rest, by simp [← h.1]⟩
    · simp only [decode?, hlead, if_false] at h
      grind [le_shiftLeft_or, Option.map_eq_some_iff]

end Unit16

/-! ## Scalars -/

theorem Scan.bind_eq_ok {α β : Type} {scan : Scan α} {next : α → Scan β} {c c' : Cursor} {b : β} :
    (scan >>= next) c = .ok b c' ↔ ∃ a c₁, scan c = .ok a c₁ ∧ next a c₁ = .ok b c' := by
  rw [Scan.bind_apply]
  cases scan c <;> simp

theorem Scan.pure_eq_ok {α : Type} {a b : α} {c c' : Cursor} :
    (pure a : Scan α) c = .ok b c' ↔ a = b ∧ c = c' := by
  rw [Scan.pure_apply, EStateM.Result.ok.injEq]

namespace Scalar

theorem ofInt_toNat (s : Scalar) : ofInt s.prim s.bits.toNat = s := by
  rw [ofInt_eq, BitVec.ofInt_natCast, BitVec.ofNat_toNat, BitVec.setWidth_eq]

theorem ofInt_toInt (s : Scalar) : ofInt s.prim s.toInt = s := by
  rw [toInt_eq]
  split
  · rw [ofInt_eq, BitVec.ofInt_toInt]
  · exact s.ofInt_toNat

/-- The number of an integer is within the bounds of its text. -/
theorem toInt_mem {s : Scalar} {low high : Int} (h : s.prim.kind = .integer low high) :
    (low ≤ s.toInt ∧ s.toInt ≤ high) ∧ (s.toInt < 0 → s.prim.isSigned = true) := by
  obtain ⟨prim, bits⟩ := s
  have hlow := bits.le_toInt
  have hhigh := bits.toInt_lt
  have hnat := bits.isLt
  rw [toInt_eq]
  cases prim <;> simp_all [Prim.kind, Prim.isSigned, Prim.width] <;> omega

end Scalar

theorem encodeScalar_of_raw {s : Scalar} (hk : s.prim.kind = .raw) :
    encodeScalar s = [UInt8.ofNat s.bits.toNat] := by
  simp only [encodeScalar, hk]

theorem encodeScalar_of_integer {s : Scalar} {low high : Int}
    (hk : s.prim.kind = .integer low high) : encodeScalar s = intText s.toInt := by
  simp only [encodeScalar, hk, intText]

theorem encodeScalar_of_unit {s : Scalar} (hk : s.prim.kind = .unit) :
    encodeScalar s = Unit16.encode (UInt16.ofNat s.bits.toNat) := by
  simp only [encodeScalar, hk]

theorem encodeScalar_of_real {s : Scalar} {format : Decimal.BinaryFormat} {precision : ℕ}
    (hk : s.prim.kind = .real format precision) :
    encodeScalar s = Bytes.ofChars (Decimal.general precision (format.decode s.bits.toNat)) := by
  simp only [encodeScalar, hk]

/-! ### Real numbers -/

/-- The digits of a primitive tell the numbers of its format apart, and its bits are those of the
format. -/
theorem Prim.suits {prim : Prim} {format : Decimal.BinaryFormat} {precision : ℕ}
    (hk : prim.kind = .real format precision) :
    format.Suits precision ∧ 2 * format.signBit = prim.modulus := by
  cases prim with
  | f32 =>
    cases hk
    exact ⟨Decimal.BinaryFormat.single_suits, by decide⟩
  | f64 =>
    cases hk
    exact ⟨Decimal.BinaryFormat.double_suits, by decide⟩
  | _ => cases hk

theorem Prim.eq_or_eq_of_kind {prim : Prim} {format : Decimal.BinaryFormat} {precision : ℕ}
    (hk : prim.kind = .real format precision) : prim = .f32 ∨ prim = .f64 := by
  cases prim <;> simp_all [Prim.kind]

namespace Scalar

theorem toNat_bits_lt (s : Scalar) : s.bits.toNat < s.prim.modulus := by
  rw [Prim.modulus_eq, Nat.pow_eq]
  exact s.bits.isLt

/-- The scalar that the text of a scalar is read back as: the same one, but one quiet NaN for all
NaNs. -/
def quiet (s : Scalar) : Scalar :=
  match s.prim.kind with
  | .real format _ => ofInt s.prim (format.quiet s.bits.toNat)
  | _ => s

@[simp] theorem prim_quiet (s : Scalar) : s.quiet.prim = s.prim := by
  unfold quiet
  split <;> rfl

theorem quiet_of_real {s : Scalar} {format : Decimal.BinaryFormat} {precision : ℕ}
    (hk : s.prim.kind = .real format precision) :
    s.quiet = ofInt s.prim (format.quiet s.bits.toNat) := by
  simp only [quiet, hk]

theorem toNat_bits_ofInt {prim : Prim} {n : Nat} (h : n < prim.modulus) :
    (ofInt prim n).bits.toNat = n := by
  rw [Prim.modulus_eq, Nat.pow_eq] at h
  rw [ofInt_eq, BitVec.ofInt_natCast, BitVec.toNat_ofNat, Nat.mod_eq_of_lt h]

theorem quiet_quiet (s : Scalar) : s.quiet.quiet = s.quiet := by
  cases hk : s.prim.kind with
  | real format precision =>
    have hquiet : format.quiet s.bits.toNat < s.prim.modulus := by
      obtain ⟨-, hmodulus⟩ := Prim.suits hk
      have hbits := s.toNat_bits_lt
      have hnan := format.quietNan_lt
      unfold Decimal.BinaryFormat.quiet
      split <;> omega
    have hk' : s.quiet.prim.kind = .real format precision := by rwa [prim_quiet]
    rw [quiet_of_real hk', quiet_of_real hk]
    show ofInt s.prim (format.quiet (ofInt s.prim _).bits.toNat) = _
    rw [toNat_bits_ofInt hquiet, format.quiet_quiet]
  | _ => simp [quiet, hk]

theorem quiet_of_not_real {s : Scalar} (h : s.prim ≠ .f32 ∧ s.prim ≠ .f64) : s.quiet = s := by
  unfold quiet
  split
  · rename_i hk
    rcases Prim.eq_or_eq_of_kind hk with hp | hp
    · exact absurd hp h.1
    · exact absurd hp h.2
  · rfl

end Scalar

/-- A scalar is read back, a number up to a mark. -/
theorem decodeScalar_encodeScalar {s : Scalar} {c : Cursor} {rest : Bytes}
    (hr : s.prim.skipsBlanks = true → ∀ b ∈ rest.head?, Bytes.isMark b = true)
    (h : c.rest = encodeScalar s ++ rest) :
    ∃ c', decodeScalar s.prim c = .ok s.quiet c' ∧ c'.rest = rest := by
  cases hk : s.prim.kind with
  | raw =>
    have hbits : s.bits.toNat < 256 := by
      have := s.bits.isLt
      obtain ⟨prim, bits⟩ := s
      cases prim <;> simp_all [Prim.kind, Prim.width]
    rw [encodeScalar_of_raw hk, List.singleton_append] at h
    refine ⟨c.advance 1, ?_, by simp [Cursor.advance, h]⟩
    simp only [decodeScalar, hk, nextByte, Scan.bind_apply, Scan.get_apply, h, Scan.modify_apply,
      Scan.pure_apply, UInt8.toNat_ofNat', Nat.mod_eq_of_lt hbits, s.ofInt_toNat, Scalar.quiet]
  | integer low high =>
    obtain ⟨hn, hs⟩ := Scalar.toInt_mem hk
    rw [encodeScalar_of_integer hk] at h
    have hread := readInteger_intText s.prim.code hs hn
      (not_digit_of_mark (hr (by simp [Prim.skipsBlanks, hk]))) h
    refine ⟨⟨c.position + (intText s.toInt).length, rest⟩, ?_, rfl⟩
    simp only [decodeScalar, hk, Scan.bind_apply, hread, Scan.pure_apply, s.ofInt_toInt,
      Scalar.quiet]
  | real format precision =>
    obtain ⟨hsuits, hmodulus⟩ := Prim.suits hk
    have hbits := s.toNat_bits_lt
    rw [← hmodulus] at hbits
    rw [encodeScalar_of_real hk] at h
    obtain ⟨c', hread, hrest⟩ := readReal_general s.prim.code hsuits hbits
      (hr (by simp [Prim.skipsBlanks, hk])) h
    refine ⟨c', ?_, hrest⟩
    simp only [decodeScalar, hk, Scan.bind_apply, hread, Scan.pure_apply, Scalar.quiet_of_real hk]
  | unit =>
    have hbits : s.bits.toNat < 65536 := by
      have := s.bits.isLt
      obtain ⟨prim, bits⟩ := s
      cases prim <;> simp_all [Prim.kind, Prim.width]
    rw [encodeScalar_of_unit hk] at h
    refine ⟨c.advance (Unit16.encode (UInt16.ofNat s.bits.toNat)).length, ?_,
      by simp [Cursor.advance, h]⟩
    simp only [decodeScalar, hk, nextUnit, Scan.bind_apply, Scan.get_apply, h,
      Unit16.decode?_encode, Scan.modify_apply, Scan.pure_apply, UInt16.toNat_ofNat',
      Nat.mod_eq_of_lt hbits, s.ofInt_toNat, Scalar.quiet]

theorem skipBlanks_encodeScalar {s : Scalar} {c : Cursor} {rest : Bytes}
    (hs : s.prim.skipsBlanks = true) (h : c.rest = encodeScalar s ++ rest) :
    c.skipBlanks.rest = c.rest := by
  cases hk : s.prim.kind with
  | integer low high =>
    rw [encodeScalar_of_integer hk] at h
    exact skipBlanks_intText h
  | real format precision =>
    obtain ⟨hsuits, hmodulus⟩ := Prim.suits hk
    have hbits := s.toNat_bits_lt
    rw [← hmodulus] at hbits
    rw [encodeScalar_of_real hk] at h
    have hend : ∀ b ∈ ([] : Bytes).head?, Bytes.isMark b = true := by simp
    obtain ⟨negative, number, read, hscan, -⟩ := scanReal?_general hsuits hbits hend
    exact skipBlanks_general (List.length_pos_iff.1 (length_pos_of_scanReal? hscan).1) h
  | _ => simp [Prim.skipsBlanks, hk] at hs

/-! ### Marks -/

theorem rest_skipBlanks_suffix (c : Cursor) : c.skipBlanks.rest <:+ c.rest :=
  List.dropWhile_suffix _

theorem rest_advance_suffix (c : Cursor) (n : Nat) : (c.advance n).rest <:+ c.rest :=
  List.drop_suffix _ _

/-- A raw byte that is read is written again. -/
theorem nextByte_bytes {prim : Prim} {b : UInt8} {c c' : Cursor} (hk : prim.kind = .raw)
    (h : nextByte c = .ok b c') :
    c'.rest <:+ c.rest ∧ encodeScalar (.ofInt prim b.toNat) = [b] ∧ b ∈ c.rest := by
  simp only [nextByte, Scan.bind_apply, Scan.get_apply] at h
  cases hr : c.rest with
  | nil => simp [hr, Scan.throw_apply] at h
  | cons b' rest =>
    simp only [hr, Scan.bind_apply, Scan.modify_apply, Scan.pure_apply,
      EStateM.Result.ok.injEq] at h
    obtain ⟨rfl, rfl⟩ := h
    have hn : b'.toNat < prim.modulus := by
      have := b'.toNat_lt
      cases prim <;> simp_all [Prim.kind, Prim.modulus]
    refine ⟨hr ▸ rest_advance_suffix c 1, ?_, List.mem_cons_self⟩
    rw [@encodeScalar_of_raw (.ofInt prim b'.toNat) hk, Scalar.toNat_bits_ofInt hn,
      UInt8.ofNat_toNat]

/-- A unit that is read is written again if it is ASCII. -/
theorem nextUnit_bytes {prim : Prim} {u : UInt16} {c c' : Cursor} (hk : prim.kind = .unit)
    (h : nextUnit c = .ok u c') :
    c'.rest <:+ c.rest ∧
      ∀ b < 0x80, b ∈ encodeScalar (.ofInt prim u.toNat) → b ∈ c.rest := by
  simp only [nextUnit, Scan.bind_apply, Scan.get_apply] at h
  cases hd : Unit16.decode? c.rest with
  | none => simp [hd, Scan.bind_apply, Scan.modify_apply, Scan.throw_apply] at h
  | some read =>
    obtain ⟨u', length⟩ := read
    simp only [hd, Scan.bind_apply, Scan.modify_apply, Scan.pure_apply,
      EStateM.Result.ok.injEq] at h
    obtain ⟨rfl, rfl⟩ := h
    have hn : u'.toNat < prim.modulus := by
      have := u'.toNat_lt
      cases prim <;> simp_all [Prim.kind, Prim.modulus]
    refine ⟨rest_advance_suffix c length, ?_⟩
    intro b hb hm
    rw [@encodeScalar_of_unit (.ofInt prim u'.toNat) hk, Scalar.toNat_bits_ofInt hn,
      UInt16.ofNat_toNat] at hm
    obtain ⟨hu, rfl⟩ := Unit16.mem_encode_of_lt hb hm
    obtain ⟨rest, hrest⟩ := Unit16.eq_cons_of_decode? hd hu
    simp [hrest]

theorem readInteger_suffix {code : Char} {signed : Bool} {low high n : Int} {c c' : Cursor}
    (h : readInteger code signed low high c = .ok n c') : c'.rest <:+ c.rest := by
  simp only [readInteger, Scan.bind_apply, Scan.modify_apply, Scan.get_apply] at h
  cases ht : scanInteger signed c.skipBlanks.rest with
  | error =>
    simp only [ht] at h
    split at h <;> simp [Scan.throw_apply] at h
  | ok token =>
    simp only [ht] at h
    split at h
    · simp [Scan.bind_apply, Scan.throw_apply] at h
    · simp only [Scan.bind_apply, Scan.modify_apply, Scan.pure_apply, EStateM.Result.ok.injEq] at h
      rw [← h.2]
      exact (rest_advance_suffix _ _).trans (rest_skipBlanks_suffix c)

theorem readRealText_suffix {code : Char} {read : Bool × RealText × Bytes} {c c' : Cursor}
    (h : readRealText code c = .ok read c') : c'.rest <:+ c.rest := by
  simp only [readRealText, Scan.bind_apply, Scan.modify_apply, Scan.get_apply] at h
  cases ht : scanReal? c.skipBlanks.rest with
  | none =>
    simp only [ht] at h
    split at h <;> simp [Scan.bind_apply, Scan.throw_apply] at h
  | some token =>
    simp only [ht, Scan.bind_apply, Scan.modify_apply, Scan.pure_apply,
      EStateM.Result.ok.injEq] at h
    rw [← h.2]
    exact (rest_advance_suffix _ _).trans (rest_skipBlanks_suffix c)

theorem readReal_suffix {code : Char} {format : Decimal.BinaryFormat} {bits : ℕ} {c c' : Cursor}
    (h : readReal code format c = .ok bits c') : c'.rest <:+ c.rest := by
  simp only [readReal, Scan.bind_eq_ok] at h
  obtain ⟨⟨negative, number, token⟩, c₁, hread, h⟩ := h
  have hsuffix := readRealText_suffix hread
  cases hb : number.bits? format with
  | none => simp [hb, Scan.throw_apply] at h
  | some bits =>
    simp only [hb, Scan.pure_apply, EStateM.Result.ok.injEq] at h
    rwa [← h.2]

/-- Reading a scalar leaves an end of the bytes, and the marks in its text were among them. -/
theorem decodeScalar_bytes {prim : Prim} {s : Scalar} {c c' : Cursor}
    (h : decodeScalar prim c = .ok s c') :
    c'.rest <:+ c.rest ∧ ∀ b, Bytes.isMark b = true → b ∈ encodeScalar s → b ∈ c.rest := by
  cases hk : prim.kind with
  | raw =>
    simp only [decodeScalar, hk, Scan.bind_eq_ok, Scan.pure_eq_ok] at h
    obtain ⟨b, _, hread, rfl, rfl⟩ := h
    obtain ⟨hsuffix, htext, hm⟩ := nextByte_bytes hk hread
    exact ⟨hsuffix, fun b' _ hb => by grind⟩
  | integer low high =>
    simp only [decodeScalar, hk, Scan.bind_eq_ok, Scan.pure_eq_ok] at h
    obtain ⟨n, _, hread, rfl, rfl⟩ := h
    refine ⟨readInteger_suffix hread, ?_⟩
    intro b hb hm
    rw [@encodeScalar_of_integer (.ofInt prim n) _ _ hk] at hm
    exact absurd hm (not_mem_intText hb _)
  | real format precision =>
    simp only [decodeScalar, hk, Scan.bind_eq_ok, Scan.pure_eq_ok] at h
    obtain ⟨bits, _, hread, rfl, rfl⟩ := h
    refine ⟨readReal_suffix hread, ?_⟩
    intro b hb hm
    rw [@encodeScalar_of_real (.ofInt prim bits) _ _ hk] at hm
    exact absurd hm (not_mem_general hb _ _)
  | unit =>
    simp only [decodeScalar, hk, Scan.bind_eq_ok, Scan.pure_eq_ok] at h
    obtain ⟨u, _, hread, rfl, rfl⟩ := h
    obtain ⟨hsuffix, hm⟩ := nextUnit_bytes hk hread
    exact ⟨hsuffix, fun b hb => hm b (by grind [Bytes.isMark])⟩

/-! ### Integers -/

/-- An integer is read if and only if behind the blanks there is a token, with all digits that
follow its sign, and its number is within the bounds. The cursor is left behind the token, and by a
failure behind the blanks. So an integer that is written is read back in front of any byte that is
no digit. -/
theorem readInteger_exact (code : Char) (signed : Bool) (low high : ℤ) (c : Cursor) :
    (∀ n c', readInteger code signed low high c = .ok n c' ↔
      ∃ blanks token rest, c.rest = blanks ++ token ++ rest ∧
        (∀ b ∈ blanks, Bytes.isBlank b = true) ∧ IntegerToken signed token n ∧
        (∀ b ∈ rest.head?, Bytes.isDigit b = false) ∧ (low ≤ n ∧ n ≤ high) ∧
        c' = ⟨c.position + (blanks ++ token).length, rest⟩) ∧
    (∀ fault c', readInteger code signed low high c = .error fault c' →
      ∃ blanks rest, c.rest = blanks ++ rest ∧ (∀ b ∈ blanks, Bytes.isBlank b = true) ∧
        (∀ b ∈ rest.head?, Bytes.isBlank b = false) ∧
        c' = ⟨c.position + blanks.length, rest⟩) ∧
    ∀ (s : Scalar) (rest : Bytes), s.prim.code ∈ ['b', 'B', 's', 'S', 'l', 'L', 'q', 'Q'] →
      (∀ b ∈ rest.head?, Bytes.isDigit b = false) → c.rest = encodeScalar s ++ rest →
        decodeScalar s.prim c = .ok s ⟨c.position + (encodeScalar s).length, rest⟩ := by
  obtain ⟨blanks, hrest, hblanks, hstop, hposition⟩ := c.exists_blanks
  refine ⟨fun n c' => ⟨fun h => ?_, ?_⟩, fun fault c' h => ?_, fun s rest hcode hr h => ?_⟩
  · obtain ⟨t, hscan, rfl, hn, rfl⟩ := readInteger_eq_ok_iff.1 h
    obtain ⟨token, rest, hbody, hlength, htoken, hr⟩ := exists_token_of_scanInteger hscan
    refine ⟨blanks, token, rest, by rw [hrest, hbody, List.append_assoc], hblanks, htoken, hr, hn,
      ?_⟩
    simp [Cursor.advance, hbody, ← hlength, hposition, Nat.add_assoc]
  · rintro ⟨blanks, token, rest, h, hb, ht, hr, hn, rfl⟩
    exact readInteger_of_token h hb ht hr hn
  · obtain rfl := eq_skipBlanks_of_readInteger_error h
    exact ⟨blanks, _, hrest, hblanks, hstop, by rw [← hposition]⟩
  · obtain ⟨low, high, hk⟩ : ∃ low high, s.prim.kind = .integer low high := by
      cases hp : s.prim <;> simp_all [Prim.code, Prim.kind]
    obtain ⟨hn, hs⟩ := Scalar.toInt_mem hk
    rw [encodeScalar_of_integer hk] at h ⊢
    have hread := readInteger_intText s.prim.code hs hn hr h
    simp only [decodeScalar, hk, Scan.bind_apply, hread, Scan.pure_apply, s.ofInt_toInt]

/-- Zeros in front do not count, and the least integer of a byte is read in front of a sign. -/
theorem readInteger_of_padded_sample :
    readInteger 'l' true (-10) 10
        ⟨0, 0x20 :: 0x2d :: (List.replicate 60 0x30 ++ [0x37]) ++ [0x78]⟩ =
      .ok (-7) ⟨63, [0x78]⟩ ∧
    decodeScalar .i8 ⟨0, encodeScalar (.ofInt .i8 (-128)) ++ [0x2d]⟩ =
      .ok (.ofInt .i8 (-128)) ⟨4, [0x2d]⟩ := by
  have hdigits : (List.replicate 60 0x30 ++ [0x37] : Bytes).IsDigits := by
    refine ⟨by simp, List.forall_mem_append.2 ⟨fun b hb => ?_, List.forall_mem_singleton.2 rfl⟩⟩
    rw [List.eq_of_mem_replicate hb]
    rfl
  constructor
  · refine ((readInteger_exact 'l' true (-10) 10 _).1 _ _).2
      ⟨[0x20], 0x2d :: (List.replicate 60 0x30 ++ [0x37]), [0x78], rfl,
        List.forall_mem_singleton.2 rfl, .minus rfl hdigits, ?_, by decide, rfl⟩
    rintro _ ⟨⟩
    rfl
  · refine (readInteger_exact 'b' true (-128) 127 ⟨0, _⟩).2.2 (.ofInt .i8 (-128)) [0x2d]
      List.mem_cons_self ?_ rfl
    rintro _ ⟨⟩
    rfl

end RecordStore
