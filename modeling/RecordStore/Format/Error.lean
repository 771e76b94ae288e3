import RecordStore.Text.Quoted

/-!
# Faults of format strings

## Main definitions

* `FormatError` — why a format string gives no schema.
* `FormatError.message` — what is said about it.
-/

namespace RecordStore

inductive FormatError
  /-- No rule of the grammar fits the text. -/
  | noViableParse (format : String)
  /-- A hexadecimal escape of two characters that are not both digits. -/
  | badEscape (high low : Char) (format : String)
  /-- A separator and one of an enclosing container begin alike. -/
  | separatorCollision (node : String) (inner outer : Bytes)
  deriving DecidableEq, Repr

def FormatError.message : FormatError → String
  | noViableParse format => s!"incorrect format string '{format}'"
  | badEscape high low format =>
    let escape := String.ofList ['\\', 'x', high, low]
    s!"bad escape '{escape}' in '{format}'"
  | separatorCollision node inner outer =>
    let inner := Quoted.quoteBytes inner
    let outer := Quoted.quoteBytes outer
    s!"separator {inner} of '{node}' collides with enclosing separator {outer}"

def unescape (text : List Char) : Except FormatError Bytes :=
  (Escape.read text).mapError fun (high, low) => .badEscape high low (String.ofList text)

end RecordStore
