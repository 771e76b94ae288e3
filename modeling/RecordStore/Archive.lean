import RecordStore.Store.Container

/-!
# Archives

An archive is a container file opened with the schema it was built with.

## Main definitions

* `embeddedFormat` — the format that a file says it was built with.
* `Archive.open` — opens a file.
* `Archive.read`, `Archive.readText` — an instance of the root as a value and as text.
* `Archive.lookup`, `Archive.lookupIn` — what stands behind a key.
-/

namespace RecordStore

structure Archive where
  schema : Schema
  root : Container
  deriving Repr

def embeddedFormat (bytes : Bytes) : Except ReadError String := (Header.read bytes).map (·.1)

namespace Archive

/-- Opens a file whose format is exactly that of the schema. -/
def «open» (schema : Schema) (bytes : Bytes) : Except ReadError Archive := do
  let (format, position) ← Header.read bytes
  if format ≠ schema.source then throw (.formatMismatch schema.source format)
  return { schema, root := ← Container.open schema (bytes.drop position) }

def instances (a : Archive) : Nat := a.root.instances

def checkInstance (a : Archive) (index : Nat) : Except ReadError Unit :=
  if index < a.instances then .ok () else .error (.instanceOutOfRange index a.instances)

def read (a : Archive) (index : Nat) : Except ReadError Value := do
  a.checkInstance index
  a.root.read index

def readText (a : Archive) (index : Nat) : Except ReadError Bytes := do
  (encode a.schema (← a.read index)).mapError .decode

/-- What a lookup in a set finds. -/
def presentText : Bytes := Bytes.ofText "1"

def find (view : KeyedView) (index : Nat) (key : Bytes) : Except ReadError (Option Slotted) :=
  Except.mapError .access do
    match ← view.instance? index with
    | some keyed => keyed.get key
    | none => return none

/-- The text behind a key in an instance of a keyed root: the value of a map, or a mark that the
key is in a set. -/
def lookupIn (a : Archive) (index : Nat) (keyText : Bytes) : Except ReadError (Option Bytes) := do
  match a.schema, a.root with
  | .set label keys, .set _ _ _ view =>
    a.checkInstance index
    let (key, _) ← (keys.decodeKey keyText).mapError .decode
    match ← find view index key with
    | none => return none
    | some .present => return some presentText
    | some (.value _) => throw (.corrupt label.ordinal .entryKind)
  | .map label keys value _, .map _ _ _ view child =>
    a.checkInstance index
    let (key, _) ← (keys.decodeKey keyText).mapError .decode
    match ← find view index key with
    | none => return none
    | some .present => throw (.corrupt label.ordinal .entryKind)
    | some (.value entry) => some <$> (encode value (← child.read entry)).mapError .decode
  | schema, _ => throw (.notKeyed schema.source)

/-- The text behind a key in the first instance. A keyed root without instances has no keys. -/
def lookup (a : Archive) (keyText : Bytes) : Except ReadError (Option Bytes) :=
  match a.schema with
  | .set .. | .map .. => if a.instances = 0 then .ok none else a.lookupIn 0 keyText
  | schema => .error (.notKeyed schema.source)

end Archive

end RecordStore
