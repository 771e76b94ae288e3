import RecordStore.Store.Error
import RecordStore.Store.Section

/-!
# Reading stored numbers

## Main definitions

* `Take` — reading at a cursor; a read past the end says where it stood.
* `Take.bytes`, `Take.number`, `Take.table` — byte strings, numbers and tables.
* `Header.read` — the format of a container file, and where its first section starts.
-/

namespace RecordStore

abbrev Take := StateT Cursor (Except ReadError)

namespace Take

def bytes (n : Nat) : Take Bytes := do
  let c ← get
  let taken := c.rest.take n
  if taken.length < n then throw (.truncated c.position)
  set (⟨c.position + n, c.rest.drop n⟩ : Cursor)
  return taken

def number (width : Nat) : Take Nat := return (← bytes width).toNat

def numbers (count : Nat) : Take (Array Nat) :=
  return (Bytes.words (← bytes (8 * count))).toArray

/-- A table of offsets of so many items has one number more. -/
def table (items : Nat) : Take (Array Nat) := numbers (items + 1)

end Take

namespace Header

/-- The format in a file header and the position behind the header. -/
def read (bytes : Bytes) : Except ReadError (String × Nat) := do
  let start := Cursor.start bytes
  if bytes.take magic.length ≠ magic then throw .invalidMagic
  let fields : Take (String × Nat) := do
    let found ← Take.number 4
    if found ≠ version then throw (.unsupportedVersion found)
    let _flags ← Take.number 4
    let length ← Take.number 4
    let position := (← get).position
    match Utf8.read? (← Take.bytes length) with
    | some format => return (format, (← get).position)
    | none => throw (.truncated position)
  let (result, _) ← fields (start.advance magic.length)
  return result

end Header

end RecordStore
