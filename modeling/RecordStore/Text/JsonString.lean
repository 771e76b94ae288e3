import RecordStore.Text.Escape
import RecordStore.Text.Utf8

/-!
# Reading JSON strings

A string is read from bytes up to its closing quote. What it holds must be UTF-8 without control
characters; characters outside the first plane may be escaped as two surrogates in a row, and a
surrogate may not stand alone.

## Main definitions

* `Json.readString?` — the text of a string and the bytes behind it.
-/

namespace RecordStore.Json

def letterByte? (letter : UInt8) : Option UInt8 :=
  match Char.ofNat letter.toNat with
  | '\x22' | '\\' | '/' => some letter
  | 'b' => some 0x08
  | 'f' => some 0x0c
  | 'n' => some 0x0a
  | 'r' => some 0x0d
  | 't' => some 0x09
  | _ => none

def unit? (a b c d : UInt8) : Option Nat := do
  let digit (b : UInt8) := Escape.hexValue? (Char.ofNat b.toNat)
  return 4096 * (← digit a) + 256 * (← digit b) + 16 * (← digit c) + (← digit d)

def isLeading (unit : Nat) : Bool := 0xd800 ≤ unit && unit ≤ 0xdbff

def isTrailing (unit : Nat) : Bool := 0xdc00 ≤ unit && unit ≤ 0xdfff

def pairChar (leading trailing : Nat) : Char :=
  Char.ofNat (0x10000 + (leading - 0xd800) * 0x400 + (trailing - 0xdc00))

/-- The bytes of a string up to its closing quote, and what is behind that. -/
def stringBytes? : Bytes → Option (Bytes × Bytes)
  | [] => none
  | 0x22 :: rest => some ([], rest)
  | 0x5c :: 0x75 :: a :: b :: c :: d :: 0x5c :: 0x75 :: e :: f :: g :: h :: rest => do
    let unit ← unit? a b c d
    if isLeading unit then
      let low ← unit? e f g h
      if !isTrailing low then none
      let (bytes, rest) ← stringBytes? rest
      return (String.utf8EncodeChar (pairChar unit low) ++ bytes, rest)
    else
      if isTrailing unit then none
      let (bytes, rest) ← stringBytes? (0x5c :: 0x75 :: e :: f :: g :: h :: rest)
      return (String.utf8EncodeChar (Char.ofNat unit) ++ bytes, rest)
  | 0x5c :: 0x75 :: a :: b :: c :: d :: rest => do
    let unit ← unit? a b c d
    if isLeading unit || isTrailing unit then none
    let (bytes, rest) ← stringBytes? rest
    return (String.utf8EncodeChar (Char.ofNat unit) ++ bytes, rest)
  | 0x5c :: letter :: rest => do
    let byte ← letterByte? letter
    let (bytes, rest) ← stringBytes? rest
    return (byte :: bytes, rest)
  | byte :: rest => do
    if byte < 0x20 || byte = 0x5c then none
    let (bytes, rest) ← stringBytes? rest
    return (byte :: bytes, rest)
termination_by input => input.length

def readString? (input : Bytes) : Option (String × Bytes) := do
  let (bytes, rest) ← stringBytes? input
  return (← Utf8.read? bytes, rest)

end RecordStore.Json
