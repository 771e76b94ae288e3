import RecordStore.Codec.Text
import RecordStore.Store.Reader
import RecordStore.Store.View

/-!
# Containers

A container is the sections of a file, one for each stored node of the schema, in the shape of
the schema. Opening it checks every table once; keys have no section of their own.

## Main definitions

* `Container` — the tree of sections.
* `Container.open` — the container in the bytes behind a file header.
* `Container.read` — the value of an instance.
-/

namespace RecordStore

/-- The sections of a schema. Each node keeps the arguments stored in its section. -/
inductive Container
  | flat (node : FlatNode) (args : String) (view : FlatView)
  | ragged (node : FlatNode) (args : String) (view : RaggedView)
  | sequence (label : Label) (args : String) (view : ShapeView) (element : Container)
  | set (label : Label) (keys : KeySpec) (args : String) (view : KeyedView)
  | map (label : Label) (keys : KeySpec) (args : String) (view : KeyedView) (value : Container)
  | pair (label : Label) (args : String) (instances : Nat) (first second : Container)
  deriving Repr

namespace Container

def ordinal : Container → Nat
  | flat node .. | ragged node .. => node.label.ordinal
  | sequence label .. | set label .. | map label .. | pair label .. => label.ordinal

def instances : Container → Nat
  | flat _ _ view => view.count
  | ragged _ _ view => view.instances
  | sequence _ _ view _ => view.instances
  | set _ _ _ view | map _ _ _ view _ => view.instances
  | pair _ _ instances _ _ => instances

/-! ## Opening -/

def require (condition : Bool) (ordinal : Nat) (cause : Corruption) : Except ReadError Unit :=
  if condition then .ok () else .error (.corrupt ordinal cause)

structure RawSection where
  tag : Nat
  args : String
  body : Bytes

/-- The next section, which must belong to the node with the given ordinal. -/
def takeSection (ordinal : Nat) : Take RawSection := do
  let tag ← Take.number 1
  let found ← Take.number 4
  if found ≠ ordinal then throw (.ordinalMismatch ordinal found)
  let argsLength ← Take.number 2
  let args ← match Utf8.read? (← Take.bytes argsLength) with
    | some args => pure args
    | none => throw (.corrupt ordinal .argsNotText)
  let bodyLength ← Take.number 8
  return { tag, args, body := ← Take.bytes bodyLength }

/-- Reads the body of a section with the expected tag, up to its end. -/
def readBody {α : Type} (ordinal : Nat) (tag : Section.Tag) (raw : RawSection) (read : Take α) :
    Except ReadError α := do
  if raw.tag ≠ tag.toNat then throw (.unexpectedSection ordinal raw.tag)
  let (view, c) ← read (.start raw.body)
  require c.atEnd ordinal .trailingBody
  return view

def takeWidth (node : FlatNode) : Take Nat := do
  let found ← Take.number 4
  let expected := node.layout.width
  require (found = expected) node.label.ordinal (.elementWidth found expected)
  return expected

def takeFlat (node : FlatNode) : Take FlatView := do
  let width ← takeWidth node
  let count ← Take.number 8
  require (count * width < wordLimit) node.label.ordinal .valueCount
  return { width, count, data := (← Take.bytes (count * width)).toArray }

def takeOffsets (items ordinal : Nat) (cause : Corruption) : Take (Array Nat × Nat) := do
  let table ← Take.table items
  let total := table.back?.getD 0
  require (isOffsetTable table.toList total) ordinal cause
  return (table, total)

def takeRagged (node : FlatNode) : Take RaggedView := do
  let width ← takeWidth node
  let instances ← Take.number 8
  let (offsets, elements) ← takeOffsets instances node.label.ordinal .instanceOffsets
  require (elements * width < wordLimit) node.label.ordinal .elementCount
  return { width, instances, offsets, data := (← Take.bytes (elements * width)).toArray }

def takeShape (ordinal : Nat) : Take ShapeView := do
  let instances ← Take.number 8
  let (offsets, _) ← takeOffsets instances ordinal .elementOffsets
  return { instances, offsets }

/-- Whether the bucket table of an instance has a power of two of buckets and covers its keys. -/
def checkBuckets (tables : HashTables) (entryStarts : Array Nat) (i : Nat) : Checked Bool := do
  let first ← Checked.entry tables.index i
  let last ← Checked.entry tables.index (i + 1)
  if last < first ∨ tables.table.size < last then throw .outOfRange
  let bounds := (tables.table.extract first last).toList
  let keys ← Checked.sub (← Checked.entry entryStarts (i + 1)) (← Checked.entry entryStarts i)
  let count := last - first - 1
  return count = Bucket.leastPower count && isOffsetTable bounds keys

def takeHash (ordinal instances : Nat) (entryStarts : Array Nat) : Take HashTables := do
  let (index, size) ← takeOffsets instances ordinal .bucketIndex
  let tables := { index, table := ← Take.numbers size }
  for i in List.range instances do
    match checkBuckets tables entryStarts i with
    | .ok fits => require fits ordinal .bucketTable
    | .error fault => throw (.access fault)
  return tables

def takeKeyed (ordinal : Nat) (ordered : Bool) : Take KeyedView := do
  let set := (← Take.number 1) ≠ 0
  let instances ← Take.number 8
  let (entryStarts, entries) ← takeOffsets instances ordinal .entryStarts
  let (keyOffsets, size) ← takeOffsets entries ordinal .keyOffsets
  let keys := (← Take.bytes size).toArray
  let hash ← if ordered then pure none else some <$> takeHash ordinal instances entryStarts
  return { set, instances, entryStarts, keyOffsets, keys, hash }

def keyedTag (keys : KeySpec) : Section.Tag := if keys.ordered then .trie else .hash

def checkChild (ordinal expected : Nat) (child : Container) : Except ReadError Unit :=
  require (child.instances = expected) ordinal
    (.childCount child.ordinal child.instances expected)

def takeNode : Schema → Take Container
  | .flat node => do
    let ordinal := node.label.ordinal
    let raw ← takeSection ordinal
    match node.layout with
    | .primitive _ | .struct _ =>
      return .flat node raw.args (← readBody ordinal .flat raw (takeFlat node))
    | .structs _ =>
      return .ragged node raw.args (← readBody ordinal .ragged raw (takeRagged node))
  | .sequence label element _ _ => do
    let raw ← takeSection label.ordinal
    let view ← readBody label.ordinal .shape raw (takeShape label.ordinal)
    let child ← takeNode element
    checkChild label.ordinal view.total child
    return .sequence label raw.args view child
  | .set label keys => do
    let raw ← takeSection label.ordinal
    let view ← readBody label.ordinal (keyedTag keys) raw (takeKeyed label.ordinal keys.ordered)
    return .set label keys raw.args view
  | .map label keys value _ => do
    let raw ← takeSection label.ordinal
    let view ← readBody label.ordinal (keyedTag keys) raw (takeKeyed label.ordinal keys.ordered)
    let child ← takeNode value
    unless view.set do checkChild label.ordinal view.total child
    return .map label keys raw.args view child
  | .pair label first second _ => do
    let raw ← takeSection label.ordinal
    let instances ← readBody label.ordinal .pair raw (Take.number 8)
    let firstChild ← takeNode first
    let secondChild ← takeNode second
    checkChild label.ordinal instances firstChild
    checkChild label.ordinal instances secondChild
    return .pair label raw.args instances firstChild secondChild

/-- The container in the bytes behind a file header. -/
def «open» (schema : Schema) (bytes : Bytes) : Except ReadError Container := do
  let (root, c) ← takeNode schema (.start bytes)
  require c.atEnd schema.ordinal .trailingSections
  return root

/-! ## Reading -/

/-- What a checked access gives; nothing means that the instance is missing. -/
def found {α : Type} (ordinal index : Nat) (access : Checked (Option α)) : Except ReadError α :=
  match access with
  | .ok (some a) => .ok a
  | .ok none => .error (.corrupt ordinal (.missingInstance index))
  | .error fault => .error (.access fault)

def readStored (node : FlatNode) (bytes : Bytes) : Except ReadError FlatValue :=
  (node.read bytes).mapError .decode

/-- The entries of a keyed instance; `value` reads what a key leads to. -/
def readEntries (ordinal : Nat) (keys : KeySpec) (view : KeyedView) (index : Nat)
    (value : Slotted → Except ReadError (Option Value)) : Except ReadError Value := do
  let keyed ← found ordinal index (view.instance? index)
  let entries ← (do let _ ← keyed.length; keyed.entries).mapError .access
  let read ← entries.mapM fun (key, slotted) => do
    let key ← readStored keys.node key
    return (Value.flat key, ← value slotted)
  return .keyed read

def read : Container → Nat → Except ReadError Value
  | flat node _ view, i => do
    let bytes ← found node.label.ordinal i (view.get i)
    return .flat (← readStored node bytes)
  | ragged node _ view, i => do
    let bytes ← found node.label.ordinal i (view.get i)
    return .flat (← readStored node bytes)
  | sequence label _ view element, i => do
    let (start, stop) ← found label.ordinal i (view.range i)
    return .seq (← (List.range' start (stop - start)).mapM element.read)
  | set label keys _ view, i =>
    readEntries label.ordinal keys view i fun
      | .present => return none
      | .value _ => throw (.corrupt label.ordinal .entryKind)
  | map label keys _ view child, i =>
    readEntries label.ordinal keys view i fun
      | .present => throw (.corrupt label.ordinal .entryKind)
      | .value index => some <$> child.read index
  | pair _ _ _ first second, i => return .pair (← first.read i) (← second.read i)

end Container

end RecordStore
