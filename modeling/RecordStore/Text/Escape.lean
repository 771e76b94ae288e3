import RecordStore.Bytes

/-!
# Escaped separator text

Separators may hold any bytes, so formats and messages write them with backslash escapes.

## Main definitions

* `Escape.print` — the printed form of a byte string, in printable ASCII only.
* `Escape.read` — the bytes an escaped text stands for.
-/

namespace RecordStore.Escape

/-! ## Printing -/

def hexDigit (n : Nat) : Char :=
  if n < 10 then Char.ofNat (48 + n) else Char.ofNat (87 + n)

/-- One byte: the named escapes, printable ASCII as it is, anything else by its two digits. -/
def printByte (b : UInt8) : List Char :=
  if b = 0x09 then ['\\', 't']
  else if b = 0x0d then ['\\', 'r']
  else if b = 0x0a then ['\\', 'n']
  else if b = 0x27 || b = 0x22 || b = 0x5c then ['\\', Char.ofNat b.toNat]
  else if 0x20 ≤ b && b ≤ 0x7e then [Char.ofNat b.toNat]
  else ['\\', 'x', hexDigit (b.toNat / 16), hexDigit (b.toNat % 16)]

def print (bytes : Bytes) : String := String.ofList (bytes.flatMap printByte)

/-! ## Reading -/

def hexValue? (c : Char) : Option Nat :=
  if '0' ≤ c && c ≤ '9' then some (c.toNat - 48)
  else if 'a' ≤ c && c ≤ 'f' then some (c.toNat - 87)
  else if 'A' ≤ c && c ≤ 'F' then some (c.toNat - 55)
  else none

/-- The byte of a one-letter escape, or the character itself when it names no control byte. -/
def letterBytes (c : Char) : Bytes :=
  match c with
  | 'n' => [0x0a]
  | 't' => [0x09]
  | 'r' => [0x0d]
  | '0' => [0x00]
  | 'a' => [0x07]
  | 'b' => [0x08]
  | 'f' => [0x0c]
  | 'v' => [0x0b]
  | c => String.utf8EncodeChar c

/-- The bytes of an escaped text, or the two characters after the first hexadecimal escape that
is not one. An `x` escape with fewer than two characters left stands for the letter, and a
backslash that ends the text stands for itself. -/
def read : List Char → Except (Char × Char) Bytes
  | [] => .ok []
  | '\\' :: 'x' :: hi :: lo :: rest =>
    match hexValue? hi, hexValue? lo with
    | some h, some l => (read rest).map (UInt8.ofNat (16 * h + l) :: ·)
    | _, _ => .error (hi, lo)
  | '\\' :: c :: rest => (read rest).map (letterBytes c ++ ·)
  | c :: rest => (read rest).map (String.utf8EncodeChar c ++ ·)

end RecordStore.Escape
