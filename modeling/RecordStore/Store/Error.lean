import RecordStore.Codec.Error

/-!
# Faults of container files

## Main definitions

* `AccessFault` — an access that leaves the data or the range of 64-bit numbers.
* `Corruption` — what is wrong inside a section.
* `ReadError` — why a file cannot be opened or queried.
-/

namespace RecordStore

/-- An access that leaves the data, or a number that leaves 64 bits. A container that has been
opened rules these out. -/
inductive AccessFault
  | outOfRange
  | overflow
  | underflow
  deriving DecidableEq, Repr

def AccessFault.message : AccessFault → String
  | outOfRange => "access out of range"
  | overflow => "arithmetic overflow"
  | underflow => "arithmetic underflow"

inductive Corruption
  | trailingSections
  | argsNotText
  | trailingBody
  | elementWidth (found expected : Nat)
  | valueCount
  | elementCount
  | elementOffsets
  | instanceOffsets
  | entryStarts
  | keyOffsets
  | bucketIndex
  | bucketTable
  | childCount (child found expected : Nat)
  | missingInstance (index : Nat)
  | entryKind
  deriving DecidableEq, Repr

def Corruption.message : Corruption → String
  | trailingSections => "trailing bytes after last section"
  | argsNotText => "section args are not UTF-8"
  | trailingBody => "trailing bytes in section body"
  | elementWidth found expected => s!"element width {found}, expected {expected}"
  | valueCount => "value count overflow"
  | elementCount => "element count overflow"
  | elementOffsets => "bad element offsets"
  | instanceOffsets => "bad instance offsets"
  | entryStarts => "bad entry starts"
  | keyOffsets => "bad key offsets"
  | bucketIndex => "bad bucket index"
  | bucketTable => "bad bucket table"
  | childCount child found expected =>
    s!"child {child} has {found} instance(s), expected {expected}"
  | missingInstance index => s!"instance {index} missing"
  | entryKind => "entry kind does not match schema"

inductive ReadError
  | invalidMagic
  | unsupportedVersion (found : Nat)
  | formatMismatch (expected found : String)
  /-- The data end before what should stand at this position. -/
  | truncated (position : Nat)
  | unexpectedSection (ordinal tag : Nat)
  | ordinalMismatch (expected found : Nat)
  | corrupt (ordinal : Nat) (cause : Corruption)
  | instanceOutOfRange (index count : Nat)
  | notKeyed (source : String)
  | decode (cause : DecodeError)
  | access (fault : AccessFault)
  deriving DecidableEq, Repr

def ReadError.message : ReadError → String
  | invalidMagic => "not a fasttrie container (bad magic)"
  | unsupportedVersion found => s!"unsupported container version {found}"
  | formatMismatch expected found =>
    s!"container was built with format {Quoted.quote found}, not {Quoted.quote expected}"
  | truncated position => s!"truncated data at byte {position}"
  | unexpectedSection ordinal tag => s!"unexpected section tag {tag} for node {ordinal}"
  | ordinalMismatch expected found =>
    s!"section belongs to node {found}, expected node {expected}"
  | corrupt ordinal cause => s!"corrupt section for node {ordinal}: {cause.message}"
  | instanceOutOfRange index count => s!"instance {index} out of range ({count} instance(s))"
  | notKeyed source => s!"lookup requires a T(...) or H(...) root, got '{source}'"
  | decode cause => cause.message
  | access fault => fault.message

end RecordStore
