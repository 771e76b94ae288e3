import RecordStore.Codec.Number
import RecordStore.Decimal.General
import RecordStore.Text.Unit16
import RecordStore.Value

/-!
# Scalars in text

## Main definitions

* `decodeScalar` — reads a primitive at a cursor.
* `encodeScalar` — the text of a scalar.
-/

namespace RecordStore

/-! ## Reading -/

def nextByte : Scan UInt8 := do
  match (← get).rest with
  | [] => throw .unexpectedEnd
  | b :: _ =>
    modify (·.advance 1)
    return b

/-- Reads a code unit. A unit cut short by the end of the input takes all bytes with it. -/
def nextUnit : Scan UInt16 := do
  match Unit16.decode? (← get).rest with
  | some (u, length) =>
    modify (·.advance length)
    return u
  | none =>
    modify Cursor.finish
    throw .unexpectedEnd

theorem length_rest_nextByte_lt {b : UInt8} {c c' : Cursor} (h : nextByte c = .ok b c') :
    c'.rest.length < c.rest.length := by
  simp only [nextByte, Scan.bind_apply, Scan.get_apply] at h
  cases hr : c.rest with
  | nil => simp [hr, Scan.throw_apply] at h
  | cons b rest =>
    simp only [hr, Scan.bind_apply, Scan.modify_apply, Scan.pure_apply,
      EStateM.Result.ok.injEq] at h
    rw [← h.2]
    simp [Cursor.advance, hr]

theorem length_rest_nextUnit_lt {u : UInt16} {c c' : Cursor} (h : nextUnit c = .ok u c') :
    c'.rest.length < c.rest.length := by
  simp only [nextUnit, Scan.bind_apply, Scan.get_apply] at h
  cases hd : Unit16.decode? c.rest with
  | none => simp [hd, Scan.bind_apply, Scan.modify_apply, Scan.throw_apply] at h
  | some read =>
    obtain ⟨u', length⟩ := read
    obtain ⟨hp, hl⟩ := Unit16.decode?_bounds hd
    simp only [hd, Scan.bind_apply, Scan.modify_apply, Scan.pure_apply,
      EStateM.Result.ok.injEq] at h
    rw [← h.2]
    exact Cursor.length_rest_advance_lt hp (List.length_pos_iff.1 (by omega))

def decodeScalar (prim : Prim) : Scan Scalar := do
  match prim.kind with
  | .raw => return .ofInt prim (← nextByte).toNat
  | .integer low high => return .ofInt prim (← readInteger prim.code prim.isSigned low high)
  | .real format _ => return .ofInt prim (← readReal prim.code format)
  | .unit => return .ofInt prim (← nextUnit).toNat

/-- Every primitive read takes at least a byte. -/
theorem length_rest_decodeScalar_lt {prim : Prim} {s : Scalar} {c c' : Cursor}
    (h : decodeScalar prim c = .ok s c') : c'.rest.length < c.rest.length := by
  cases hk : prim.kind <;> simp only [decodeScalar, hk, Scan.bind_apply] at h
  all_goals
    split at h
    · rename_i hr
      simp only [Scan.pure_apply, EStateM.Result.ok.injEq] at h
      rw [← h.2]
      first
        | exact length_rest_nextByte_lt hr
        | exact length_rest_readInteger_lt hr
        | exact length_rest_readReal_lt hr
        | exact length_rest_nextUnit_lt hr
    · simp at h

/-! ## Writing -/

def intChars (n : Int) : List Char :=
  let digits := Nat.toDigits 10 n.natAbs
  if n < 0 then '-' :: digits else digits

def encodeScalar (s : Scalar) : Bytes :=
  match s.prim.kind with
  | .raw => [UInt8.ofNat s.bits.toNat]
  | .integer .. => Bytes.ofChars (intChars s.toInt)
  | .real format precision =>
    Bytes.ofChars (Decimal.general precision (format.decode s.bits.toNat))
  | .unit => Unit16.encode (UInt16.ofNat s.bits.toNat)

end RecordStore
