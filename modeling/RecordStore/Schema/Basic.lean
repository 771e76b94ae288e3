import RecordStore.Bytes
import RecordStore.Schema.Prim

/-!
# Schemas

A schema says how a record is laid out. Flat nodes hold primitives only; sequences, keyed
containers and pairs hold further nodes. Every node knows its place in pre-order and the format
text it was read from.

## Main definitions

* `Shape`, `Layout`, `FlatNode` — flat nodes.
* `Schema` — the tree.
* `Schema.size`, `Schema.children`, `Schema.ownSeparators`, `Schema.recordSeparator?` — its parts.
* `Schema.nodes` — all nodes in pre-order.
-/

namespace RecordStore

/-! ## Flat nodes -/

/-- A primitive and the separator behind it; an empty separator means none. -/
structure Field where
  prim : Prim
  sep : Bytes
  deriving DecidableEq, Repr, Inhabited

structure Shape where
  leading : Bytes
  fields : List Field
  deriving DecidableEq, Repr, Inhabited

namespace Shape

def width (s : Shape) : Nat := s.fields.foldr (fun field n => field.prim.width + n) 0

/-- Whether blanks before the record are skipped: nothing leads it and it starts with a number. -/
def skipsBlanks (s : Shape) : Bool :=
  s.leading.isEmpty && (s.fields.head?.map (·.prim.skipsBlanks)).getD false

/-- Whether the last field is a number, so that blanks may follow the record. -/
def endsInNumber (s : Shape) : Bool :=
  (s.fields.getLast?.map (·.prim.skipsBlanks)).getD false

def isRawByte (s : Shape) : Bool :=
  match s.leading, s.fields with
  | [], [⟨.char, []⟩] | [], [⟨.uchar, []⟩] => true
  | _, _ => false

/-- Whether there is no field, so that a struct takes no bytes. -/
def isHollow (s : Shape) : Bool := s.fields.isEmpty

def separators (s : Shape) : List Bytes := s.leading :: s.fields.map (·.sep)

end Shape

/-- The layouts whose values have a binary form. -/
inductive Layout
  | primitive (prim : Prim)
  | struct (shape : Shape)
  /-- Any number of structs in a row; of raw bytes, a byte string. -/
  | structs (shape : Shape)
  deriving DecidableEq, Repr, Inhabited

namespace Layout

def width : Layout → Nat
  | primitive prim => prim.width
  | struct shape | structs shape => shape.width

def isHollow : Layout → Bool
  | primitive _ => false
  | struct shape | structs shape => shape.isHollow

def separators : Layout → List Bytes
  | primitive _ => []
  | struct shape | structs shape => shape.separators

end Layout

/-- The place of a node in pre-order and its format text. -/
structure Label where
  ordinal : Nat
  source : String
  deriving DecidableEq, Repr, Inhabited

structure FlatNode where
  label : Label
  layout : Layout
  deriving DecidableEq, Repr, Inhabited

/-! ## Trees -/

/-- The keys of a keyed container: their node, the separator behind a key, whether they are kept
in order or in buckets, and the arguments of the container. -/
structure KeySpec where
  node : FlatNode
  sep : Bytes
  ordered : Bool
  args : List String
  deriving DecidableEq, Repr, Inhabited

inductive Schema
  | flat (node : FlatNode)
  | sequence (label : Label) (element : Schema) (sep : Bytes) (args : List String)
  /-- A keyed container of keys alone. -/
  | set (label : Label) (keys : KeySpec)
  /-- A keyed container with a value behind each key. -/
  | map (label : Label) (keys : KeySpec) (value : Schema) (sep : Bytes)
  | pair (label : Label) (first second : Schema) (sep : Bytes)
  deriving DecidableEq, Repr, Inhabited

namespace Schema

def label : Schema → Label
  | flat node => node.label
  | sequence label .. | set label .. | map label .. | pair label .. => label

def ordinal (s : Schema) : Nat := s.label.ordinal

def source (s : Schema) : String := s.label.source

/-- The number of nodes, keys included. -/
def size : Schema → Nat
  | flat _ => 1
  | sequence _ element _ _ => 1 + element.size
  | set _ _ => 2
  | map _ _ value _ => 2 + value.size
  | pair _ first second _ => 1 + (first.size + second.size)

def isFlat : Schema → Bool
  | flat _ => true
  | _ => false

/-- The bytes of one element of a flat node, and none of a container. -/
def elementWidth : Schema → Nat
  | flat node => node.layout.width
  | _ => 0

/-- The children in pre-order; the key is the first child of a keyed container. -/
def children : Schema → List Schema
  | flat _ => []
  | sequence _ element _ _ => [element]
  | set _ keys => [.flat keys.node]
  | map _ keys value _ => [.flat keys.node, value]
  | pair _ first second _ => [first, second]

def ownSeparators : Schema → List Bytes
  | flat node => node.layout.separators
  | sequence _ _ sep _ => [sep]
  | set _ keys => [keys.sep]
  | map _ keys _ sep => [keys.sep, sep]
  | pair _ _ _ sep => [sep]

def recordSeparator? : Schema → Option Bytes
  | flat _ => none
  | sequence _ _ sep _ => some sep
  | set _ keys => some keys.sep
  | map _ _ _ sep => some sep
  | pair _ _ _ sep => some sep

def nodes : Schema → List Schema
  | s@(flat _) => [s]
  | s@(sequence _ element _ _) => s :: element.nodes
  | s@(set _ keys) => [s, .flat keys.node]
  | s@(map _ keys value _) => s :: .flat keys.node :: value.nodes
  | s@(pair _ first second _) => s :: (first.nodes ++ second.nodes)

end Schema

end RecordStore
