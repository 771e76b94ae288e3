import RecordStore.Store.Bucket
import RecordStore.Store.Error

/-!
# Views of sections

A view is the body of a section taken apart. Its accessors trust the tables in it: opening a
container checks them once. An accessor that would leave the data or 64-bit arithmetic reports a
fault instead.

## Main definitions

* `FlatView`, `RaggedView`, `ShapeView`, `KeyedView` — the views.
* `isOffsetTable` — what is checked of a table.
* `KeyedView.instance?`, `KeyedInstance.get`, `KeyedInstance.entries` — keyed instances.
-/

namespace RecordStore

/-! ## Checked access -/

abbrev Checked := Except AccessFault

def wordLimit : Nat := 0x10000000000000000

namespace Checked

def add (a b : Nat) : Checked Nat := if a + b < wordLimit then .ok (a + b) else .error .overflow

def mul (a b : Nat) : Checked Nat := if a * b < wordLimit then .ok (a * b) else .error .overflow

def sub (a b : Nat) : Checked Nat := if b ≤ a then .ok (a - b) else .error .underflow

def entry (table : Array Nat) (i : Nat) : Checked Nat :=
  match table[i]? with
  | some n => .ok n
  | none => .error .outOfRange

def slice (bytes : Array UInt8) (start stop : Nat) : Checked Bytes :=
  if start ≤ stop ∧ stop ≤ bytes.size then .ok (bytes.extract start stop).toList
  else .error .outOfRange

end Checked

/-- The bytes between two positions, or nothing if they are out of range. -/
def slice? (bytes : Array UInt8) (start stop : Nat) : Option Bytes :=
  (Checked.slice bytes start stop).toOption

def isMonotone : List Nat → Bool
  | a :: b :: rest => a ≤ b && isMonotone (b :: rest)
  | _ => true

/-- Whether a table starts at zero, never decreases and ends at `stop`. -/
def isOffsetTable (table : List Nat) (stop : Nat) : Bool :=
  table.head? = some 0 && isMonotone table && table.getLast? = some stop

/-! ## Flat, ragged and shape views -/

structure FlatView where
  width : Nat
  count : Nat
  data : Array UInt8
  deriving DecidableEq, Repr

def FlatView.get (v : FlatView) (i : Nat) : Checked (Option Bytes) := do
  if v.count ≤ i then return none
  let start ← Checked.mul i v.width
  let stop ← Checked.add start v.width
  return slice? v.data start stop

structure RaggedView where
  width : Nat
  instances : Nat
  offsets : Array Nat
  data : Array UInt8
  deriving DecidableEq, Repr

def RaggedView.get (v : RaggedView) (i : Nat) : Checked (Option Bytes) := do
  if v.instances ≤ i then return none
  let start ← Checked.mul (← Checked.entry v.offsets i) v.width
  let stop ← Checked.mul (← Checked.entry v.offsets (i + 1)) v.width
  return slice? v.data start stop

/-- The element indices of each instance in the child container. -/
structure ShapeView where
  instances : Nat
  offsets : Array Nat
  deriving DecidableEq, Repr

def ShapeView.range (v : ShapeView) (i : Nat) : Checked (Option (Nat × Nat)) := do
  if v.instances ≤ i then return none
  return some (← Checked.entry v.offsets i, ← Checked.entry v.offsets (i + 1))

def ShapeView.total (v : ShapeView) : Nat := v.offsets.back?.getD 0

/-! ## Keyed views -/

/-- Where the bucket table of each instance starts, and the tables. -/
structure HashTables where
  index : Array Nat
  table : Array Nat
  deriving DecidableEq, Repr

structure KeyedView where
  set : Bool
  instances : Nat
  entryStarts : Array Nat
  keyOffsets : Array Nat
  keys : Array UInt8
  hash : Option HashTables
  deriving DecidableEq, Repr

/-- What a key leads to: nothing more, or an instance of the value container. -/
inductive Slotted
  | present
  | value (index : Nat)
  deriving DecidableEq, Repr

namespace KeyedView

def total (v : KeyedView) : Nat := v.entryStarts.back?.getD 0

def key (v : KeyedView) (entry : Nat) : Checked Bytes := do
  let start ← Checked.entry v.keyOffsets entry
  let stop ← Checked.entry v.keyOffsets (entry + 1)
  Checked.slice v.keys start stop

def slotted (v : KeyedView) (entry : Nat) : Slotted :=
  if v.set then .present else .value entry

end KeyedView

/-- One instance of a keyed view: its entries, and its part of the bucket tables. -/
structure KeyedInstance where
  view : KeyedView
  start : Nat
  stop : Nat
  /-- The bounds of its bucket table, with the tables. -/
  buckets : Option (Nat × Nat × HashTables)
  deriving DecidableEq, Repr

def KeyedView.instance? (v : KeyedView) (i : Nat) : Checked (Option KeyedInstance) := do
  if v.instances ≤ i then return none
  let buckets ← v.hash.mapM fun tables =>
    return (← Checked.entry tables.index i, ← Checked.entry tables.index (i + 1), tables)
  let start ← Checked.entry v.entryStarts i
  let stop ← Checked.entry v.entryStarts (i + 1)
  return some ⟨v, start, stop, buckets⟩

namespace KeyedInstance

def length (k : KeyedInstance) : Checked Nat := Checked.sub k.stop k.start

def isEmpty (k : KeyedInstance) : Bool := k.start = k.stop

/-- The entries among which a key must be: those of its bucket, or all. -/
def bounds (k : KeyedInstance) (key : Bytes) : Checked (Nat × Nat) :=
  match k.buckets with
  | none => return (k.start, k.stop)
  | some (first, last, tables) => do
    let count ← Checked.sub (← Checked.sub last first) 1
    let bucket ← Checked.add first (Bucket.ofKey key count)
    let low ← Checked.add k.start (← Checked.entry tables.table bucket)
    let high ← Checked.add k.start (← Checked.entry tables.table (bucket + 1))
    return (low, high)

/-- Looks for a key among the entries from `low` to `high`, which are in order. -/
def search (v : KeyedView) (key : Bytes) (low high : Nat) : Checked (Option Slotted) :=
  if low < high then
    let middle := low + (high - low) / 2
    match v.key middle with
    | .error fault => .error fault
    | .ok found =>
      match compare found key with
      | .lt => search v key (middle + 1) high
      | .gt => search v key low middle
      | .eq => .ok (some (v.slotted middle))
  else .ok none
termination_by high - low

def get (k : KeyedInstance) (key : Bytes) : Checked (Option Slotted) := do
  let (low, high) ← k.bounds key
  search k.view key low high

def entries (k : KeyedInstance) : Checked (List (Bytes × Slotted)) :=
  (List.range' k.start (k.stop - k.start)).mapM fun entry =>
    return (← k.view.key entry, k.view.slotted entry)

end KeyedInstance

end RecordStore
