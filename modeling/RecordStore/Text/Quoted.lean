import RecordStore.Text.Escape
import RecordStore.Text.Printable

/-!
# Quoted text in messages

A quoted text stands between double quotes. Quotes and backslashes inside it are escaped, and
characters without a glyph are shown by their number.

## Main definitions

* `Quoted.quote` — the quoted form of a text.
* `Quoted.quoteBytes` — the quoted form of escaped bytes, so that their backslashes are doubled.
-/

namespace RecordStore.Quoted

def hexDigits (n : Nat) : List Char := Nat.toDigits 16 n

def quoteChar (c : Char) : List Char :=
  if c = Char.ofNat 0 then ['\\', '0']
  else if c = '\t' then ['\\', 't']
  else if c = '\r' then ['\\', 'r']
  else if c = '\n' then ['\\', 'n']
  else if c = '\\' || c = '\x22' then ['\\', c]
  else if Printable.isHidden c then
    ['\\', 'u', '\x7b'] ++ hexDigits c.toNat ++ ['\x7d']
  else [c]

def quote (text : String) : String :=
  String.ofList ('\x22' :: text.toList.flatMap quoteChar ++ ['\x22'])

def quoteBytes (bytes : Bytes) : String := quote (Escape.print bytes)

end RecordStore.Quoted
