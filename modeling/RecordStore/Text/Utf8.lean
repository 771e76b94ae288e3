import RecordStore.Bytes

/-!
# UTF-8 text in bytes

Formats and arguments stored in a file must be UTF-8; bytes quoted in a message need not be, and
each stretch that cannot begin or continue a character is then shown as one replacement.

## Main definitions

* `Utf8.read?` — the text of well-formed bytes.
* `Utf8.readLossy` — the text of any bytes, with U+FFFD for malformed stretches.
-/

namespace RecordStore.Utf8

def read? (bytes : Bytes) : Option String := String.fromUTF8? bytes.toByteArray

theorem toByteArray_ofText (text : String) :
    (Bytes.ofText text).toByteArray = text.toByteArray := by
  rw [← String.utf8Encode_toList]
  rfl

theorem read?_ofText (text : String) : read? (Bytes.ofText text) = some text := by
  simp only [read?, toByteArray_ofText, String.fromUTF8?]
  exact dif_pos text.isValidUTF8

theorem ofText_of_read? {bytes : Bytes} {text : String} (h : read? bytes = some text) :
    Bytes.ofText text = bytes := by
  unfold read? String.fromUTF8? at h
  split at h
  · obtain rfl := Option.some.inj h
    rename_i hvalid
    have hbytes : (Bytes.ofText (.fromUTF8 bytes.toByteArray hvalid)).toByteArray =
        bytes.toByteArray := toByteArray_ofText _
    have hdata := congrArg ByteArray.data hbytes
    rw [List.data_toByteArray, List.data_toByteArray] at hdata
    exact List.toArray_inj hdata
  · cases h

/-- How many bytes follow a lead byte, and the range of the first of them. -/
def followers? (lead : UInt8) : Option (Nat × UInt8 × UInt8) :=
  if lead ≤ 0x7f then some (0, 0x80, 0xbf)
  else if lead < 0xc2 then none
  else if lead ≤ 0xdf then some (1, 0x80, 0xbf)
  else if lead = 0xe0 then some (2, 0xa0, 0xbf)
  else if lead = 0xed then some (2, 0x80, 0x9f)
  else if lead ≤ 0xef then some (2, 0x80, 0xbf)
  else if lead = 0xf0 then some (3, 0x90, 0xbf)
  else if lead ≤ 0xf3 then some (3, 0x80, 0xbf)
  else if lead = 0xf4 then some (3, 0x80, 0x8f)
  else none

def leadBits (count : Nat) (lead : UInt8) : Nat :=
  match count with
  | 0 => lead.toNat
  | 1 => lead.toNat % 32
  | 2 => lead.toNat % 16
  | _ => lead.toNat % 8

/-- Reads `count` followers, the first within `lo` and `hi`; a byte that does not fit is left. -/
def follow : (count : Nat) → (lo hi : UInt8) → (code : Nat) → Bytes → Option Nat × Bytes
  | 0, _, _, code, rest => (some code, rest)
  | _ + 1, _, _, _, [] => (none, [])
  | count + 1, lo, hi, code, b :: rest =>
    if lo ≤ b && b ≤ hi then follow count 0x80 0xbf (code * 64 + b.toNat % 64) rest
    else (none, b :: rest)

theorem length_follow_le (count : Nat) (lo hi : UInt8) (code : Nat) (bytes : Bytes) :
    (follow count lo hi code bytes).2.length ≤ bytes.length := by
  fun_induction follow count lo hi code bytes with
  | case1 => simp
  | case2 => simp
  | case3 _ _ _ _ _ _ _ ih => exact Nat.le_succ_of_le ih
  | case4 => simp

/-- The characters of the bytes, one replacement for each malformed stretch. -/
def charsLossy : Bytes → List Char
  | [] => []
  | lead :: rest =>
    match followers? lead with
    | none => '\uFFFD' :: charsLossy rest
    | some (count, lo, hi) =>
      let read := follow count lo hi (leadBits count lead) rest
      (read.1.map Char.ofNat).getD '\uFFFD' :: charsLossy read.2
termination_by bytes => bytes.length
decreasing_by
  · simp
  · exact Nat.lt_succ_of_le (length_follow_le ..)

def readLossy (bytes : Bytes) : String := String.ofList (charsLossy bytes)

end RecordStore.Utf8
