import RecordStore.Codec.Error
import RecordStore.Value

/-!
# Binary form of flat values

Flat values have a form of fixed width, little-endian and without separators. The keys of keyed
containers are these bytes.

## Main definitions

* `Scalar.toBytes`, `Scalar.ofBytes` — one primitive.
* `FlatNode.write`, `FlatNode.read` — a value of a flat node.
* `Schema.keyBytes`, `Schema.readFlat` — the same for any node; containers have no such form.
-/

namespace RecordStore

/-! ## Scalars -/

def Scalar.toBytes (s : Scalar) : Bytes := Bytes.ofNat s.prim.width s.bits.toNat

def Scalar.ofBytes (prim : Prim) (bytes : Bytes) : Except DecodeError Scalar :=
  let front := bytes.take prim.width
  if h : front.length = prim.width then
    .ok ⟨prim, BitVec.ofNatLT (Bytes.toNat front) (by
      have := Bytes.toNat_lt front
      rwa [h, Nat.pow_eq, show (256 : Nat) = 2 ^ 8 from rfl, ← Nat.pow_mul] at this)⟩
  else .error .unexpectedEnd

/-! ## Structs -/

namespace Shape

def fits (s : Shape) (scalars : List Scalar) : Bool :=
  scalars.map (·.prim) = s.fields.map (·.prim)

def write? (s : Shape) (scalars : List Scalar) : Option Bytes :=
  if s.fits scalars then some (scalars.flatMap Scalar.toBytes) else none

/-- The scalars of primitives in a row; bytes behind them are left alone. -/
def readPrims : List Prim → Bytes → Except DecodeError (List Scalar)
  | [], _ => .ok []
  | prim :: prims, bytes => do
    let s ← Scalar.ofBytes prim bytes
    return s :: (← readPrims prims (bytes.drop prim.width))

def read (s : Shape) (bytes : Bytes) : Except DecodeError (List Scalar) :=
  readPrims (s.fields.map (·.prim)) bytes

end Shape

/-! ## Flat values -/

namespace FlatNode

def mismatch (node : FlatNode) : DecodeError := .shapeMismatch node.label.ordinal

def write (node : FlatNode) (value : FlatValue) : Except DecodeError Bytes :=
  match node.layout, value with
  | .primitive prim, .scalar s => if s.prim = prim then .ok s.toBytes else .error node.mismatch
  | .struct shape, .struct fields =>
    match shape.write? fields with
    | some bytes => .ok bytes
    | none => .error node.mismatch
  | .structs shape, .bytes data => if shape.isRawByte then .ok data else .error node.mismatch
  | .structs shape, .structs items =>
    if shape.isRawByte then .error node.mismatch
    else
      match items.mapM shape.write? with
      | some structs => .ok structs.flatten
      | none => .error node.mismatch
  | _, _ => .error node.mismatch

/-- The value that the bytes hold. A run of structs takes all bytes. -/
def read (node : FlatNode) (bytes : Bytes) : Except DecodeError FlatValue :=
  match node.layout with
  | .primitive prim => (Scalar.ofBytes prim bytes).map .scalar
  | .struct shape => (shape.read bytes).map .struct
  | .structs shape =>
    if shape.isRawByte then .ok (.bytes bytes)
    else if shape.width = 0 ∨ bytes.length % shape.width ≠ 0 then .error node.mismatch
    else ((Bytes.pieces shape.width bytes).mapM shape.read).map .structs

end FlatNode

namespace Schema

def mismatch (s : Schema) : DecodeError := .shapeMismatch s.ordinal

def keyBytes (s : Schema) (value : Value) : Except DecodeError Bytes :=
  match s, value with
  | flat node, .flat value => node.write value
  | s, _ => .error s.mismatch

def readFlat (s : Schema) (bytes : Bytes) : Except DecodeError Value :=
  match s with
  | flat node => (node.read bytes).map .flat
  | s => .error s.mismatch

end Schema

end RecordStore
