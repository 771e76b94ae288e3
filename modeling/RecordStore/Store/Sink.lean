import RecordStore.Store.Bucket
import RecordStore.Store.Section
import RecordStore.Staging
import Std.Data.TreeMap

/-!
# Keyed sections

Keys arrive in any order. A sink keeps the keys of each instance sorted with a slot behind each,
and its end fixes the order in which they are stored: sorted, or bucket by bucket.

## Main definitions

* `Slot` — what stands behind a key.
* `KeyedSink` — the keys collected so far.
* `KeyedSink.startInstance`, `KeyedSink.insert` — collecting keys.
* `KeyedSink.finish` — the section, with the staged payloads in the order of their keys.
-/

namespace RecordStore

/-- What stands behind a key: nothing, or a staged payload. -/
inductive Slot
  | presence
  | staged (handle : Area.Handle)
  deriving DecidableEq, Repr

def Slot.handle? : Slot → Option Area.Handle
  | presence => none
  | staged handle => some handle

abbrev Skeleton := Std.TreeMap Bytes Slot

/-- Keys with their slots in the order in which they are stored. -/
abbrev Entries := List (Bytes × Slot)

namespace Entries

/-- The entries of each bucket; they keep their order within a bucket. -/
def buckets (entries : Entries) : List Entries :=
  let count := Bucket.count entries.length
  (entries.foldr (fun entry buckets => buckets.modify (Bucket.ofKey entry.1 count) (entry :: ·))
    (Array.replicate count [])).toList

end Entries

structure KeyedSection where
  bytes : Bytes
  /-- The staged payloads in the order in which their keys are stored. -/
  finalOrder : List Area.Handle
  /-- The number of keys over all instances. -/
  entries : Nat
  deriving DecidableEq, Repr

structure KeyedSink where
  ordinal : Nat
  ordered : Bool
  /-- Whether the keys make a set. -/
  set : Bool
  args : List String
  /-- The keys of each instance. -/
  skeletons : Array Skeleton
  deriving Repr

namespace KeyedSink

def start (ordinal : Nat) (ordered set : Bool) (args : List String) : KeyedSink :=
  ⟨ordinal, ordered, set, args, #[]⟩

def startInstance (k : KeyedSink) : KeyedSink := { k with skeletons := k.skeletons.push ∅ }

def instances (k : KeyedSink) : Nat := k.skeletons.size

/-- Inserts a key into the last instance; a sink without one starts it. A key that is there gets
the new slot. -/
def insert (k : KeyedSink) (key : Bytes) (slot : Slot) : KeyedSink :=
  let k := if k.instances = 0 then k.startInstance else k
  { k with skeletons := k.skeletons.modify (k.instances - 1) (·.insert key slot) }

def sorted (k : KeyedSink) : List Entries := k.skeletons.toList.map (·.toList)

def stored (k : KeyedSink) : List Entries :=
  if k.ordered then k.sorted else k.sorted.map fun entries => entries.buckets.flatten

def bucketTables (k : KeyedSink) : List (List Nat) :=
  k.sorted.map fun entries => Section.offsets (entries.buckets.map List.length)

/-- The set flag, the tables of entries and keys, the keys, and the bucket tables behind a table
of where each starts. -/
def body (k : KeyedSink) : Bytes :=
  let stored := k.stored
  let keys := (stored.flatten).map (·.1)
  let tables := k.bucketTables
  Bytes.ofNat 1 k.set.toNat ++ Bytes.ofNat 8 stored.length ++
    Section.numbers (Section.offsets (stored.map List.length)) ++
    Section.numbers (Section.offsets (keys.map List.length)) ++ keys.flatten ++
    if k.ordered then []
    else
      Section.numbers (Section.offsets (tables.map List.length)) ++
        Section.numbers tables.flatten

def finish (k : KeyedSink) : KeyedSection :=
  let entries := k.stored.flatten
  { bytes := Section.write (if k.ordered then .trie else .hash) k.ordinal k.args k.body
    finalOrder := entries.filterMap fun entry => entry.2.handle?
    entries := entries.length }

end KeyedSink

end RecordStore
