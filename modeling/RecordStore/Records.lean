import RecordStore.Bytes

/-!
# Records

An input is cut into records at each occurrence of a delimiter, from left to right. Empty records
between two delimiters count, an empty rest behind the last one does not. Without a delimiter the
whole input is one record, even if it is empty.

## Main definitions

* `RecordReader` — an input with the records read so far taken off.
* `RecordReader.next` — the next record.
* `Records.split` — all records of an input.
* `Records.delimitsCleanly` — whether a payload and its delimiter are read back as one record.
* `Records.mapEntries`, `Records.Entry` — records of a map.
-/

namespace RecordStore

structure RecordReader where
  delim : Bytes
  rest : Bytes
  /-- Set once the end has been met. -/
  done : Bool
  deriving DecidableEq, Repr

namespace RecordReader

def start (delim input : Bytes) : RecordReader := ⟨delim, input, false⟩

def finish (r : RecordReader) : RecordReader := { r with rest := [], done := true }

def next (r : RecordReader) : Option Bytes × RecordReader :=
  if r.done then (none, r)
  else if r.delim.isEmpty then (some r.rest, r.finish)
  else
    match Bytes.cut? r.delim r.rest with
    | some (record, rest) => (some record, { r with rest })
    | none => (if r.rest.isEmpty then none else some r.rest, r.finish)

/-- Bounds the number of records that are left. -/
def weight (r : RecordReader) : Nat := if r.done then 0 else r.rest.length + 1

theorem weight_next_lt {r r' : RecordReader} {record : Bytes} (h : r.next = (some record, r')) :
    r'.weight < r.weight := by
  simp only [next] at h
  split at h
  · simp at h
  · rename_i hd
    split at h
    · simp only [Prod.mk.injEq] at h
      simp [← h.2, weight, finish, hd]
    · rename_i he
      split at h
      · rename_i record' rest hc
        simp only [Prod.mk.injEq, Option.some.injEq] at h
        have := Bytes.length_lt_of_cut? (by simpa using he) hc
        simp [← h.2, weight, hd, this]
      · simp only [Prod.mk.injEq] at h
        simp [← h.2, weight, finish, hd]

def toList (r : RecordReader) : List Bytes :=
  match _h : r.next with
  | (some record, r') => record :: r'.toList
  | (none, _) => []
termination_by r.weight
decreasing_by exact weight_next_lt _h

end RecordReader

namespace Records

def split (delim input : Bytes) : List Bytes := (RecordReader.start delim input).toList

/-- The records of an input with a delimiter, or the input itself where there is none. -/
def splitOptional (delim : Option Bytes) (input : Bytes) : List Bytes :=
  match delim with
  | some delim => split delim input
  | none => [input]

/-- Whether the payload and the delimiter behind it are read back as the payload. -/
def delimitsCleanly (payload delim : Bytes) : Bool :=
  delim.isEmpty || Bytes.find? delim (payload ++ delim) = some payload.length

/-! ## Entries of a map -/

/-- What an entry of a map was cut into, or the record that could not be cut. -/
inductive Entry
  | cut (key value : Bytes)
  | broken (record : Bytes)
  deriving DecidableEq, Repr

/-- Records in turn as keys and values; a key without a value is broken. -/
def alternate : List Bytes → List Entry
  | key :: value :: rest => .cut key value :: alternate rest
  | [record] => [.broken record]
  | [] => []

def cutAt (sep record : Bytes) : Entry :=
  if sep.isEmpty then .broken record
  else
    match Bytes.cut? sep record with
    | some (key, value) => .cut key value
    | none => .broken record

/-- The entries of a map. Equal separators make keys and values alternate; otherwise the value
separator ends an entry, and its key ends at the first key separator. A record alone is broken if
the separators are equal, since it holds neither, so they are compared only for more records. -/
def mapEntries (keySep valueSep input : Bytes) : List Entry :=
  match split valueSep input with
  | records@(_ :: _ :: _) =>
    if keySep = valueSep then alternate records else records.map (cutAt keySep)
  | records => records.map (cutAt keySep)

end Records

end RecordStore
