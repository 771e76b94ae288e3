import RecordStore.Bytes

/-!
# Sections

A container file is a header and one section for each node in pre-order. A section has a tag, the
ordinal of its node, the arguments and a body; all numbers are little-endian.

## Main definitions

* `Header.write` — the bytes of the file header.
* `Section.Tag`, `Section.write` — the bytes of a section.
* `Section.offsets` — a table of offsets.
* `Section.flatBody`, `Section.raggedBody`, `Section.shapeBody`, `Section.pairBody` — the bodies
  of all nodes but keyed ones.
-/

namespace RecordStore

namespace Header

/-- The bytes that every container file starts with. -/
def magic : Bytes := Bytes.ofText "FASTTRIE"

def version : Nat := 1

/-- Magic, version, flags and the format with its length. -/
def write (format : String) : Bytes :=
  let text := Bytes.ofText format
  magic ++ Bytes.ofNat 4 version ++ Bytes.ofNat 4 0 ++ Bytes.ofNat 4 text.length ++ text

end Header

namespace Section

inductive Tag
  | flat
  | ragged
  | shape
  | trie
  | hash
  | pair
  deriving DecidableEq, Repr

def Tag.toNat : Tag → Nat
  | flat => 1
  | ragged => 2
  | shape => 3
  | trie => 4
  | hash => 5
  | pair => 6

/-- A section. The length of the arguments takes two bytes, that of the body eight. -/
def write (tag : Tag) (ordinal : Nat) (args : List String) (body : Bytes) : Bytes :=
  let text := Bytes.ofText (",".intercalate args)
  Bytes.ofNat 1 tag.toNat ++ Bytes.ofNat 4 ordinal ++ Bytes.ofNat 2 text.length ++ text ++
    Bytes.ofNat 8 body.length ++ body

/-! ## Tables -/

def numbers (ns : List Nat) : Bytes := ns.flatMap (Bytes.ofNat 8)

/-- Running totals of the lengths, from `total` on. -/
def totals (total : Nat) : List Nat → List Nat
  | [] => [total]
  | length :: lengths => total :: totals (total + length) lengths

/-- The table of offsets of items of the given lengths: one more than there are items. -/
def offsets (lengths : List Nat) : List Nat := totals 0 lengths

/-! ## Bodies -/

def flatBody (width : Nat) (values : List Bytes) : Bytes :=
  Bytes.ofNat 4 width ++ Bytes.ofNat 8 values.length ++ values.flatten

/-- Runs of elements of one width, with a table of where each run starts, counted in elements. -/
def raggedBody (width : Nat) (runs : List Bytes) : Bytes :=
  Bytes.ofNat 4 width ++ Bytes.ofNat 8 runs.length ++
    numbers ((offsets (runs.map List.length)).map (· / max width 1)) ++ runs.flatten

/-- A table of where the elements of each instance start among those of the child. -/
def shapeBody (counts : List Nat) : Bytes :=
  Bytes.ofNat 8 counts.length ++ numbers (offsets counts)

def pairBody (instances : Nat) : Bytes := Bytes.ofNat 8 instances

end Section

end RecordStore
