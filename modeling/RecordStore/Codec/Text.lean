import RecordStore.Codec.Key
import RecordStore.Codec.Scalar
import RecordStore.Records
import Std.Data.TreeMap

/-!
# Records in text

A chunk of text is decoded whole. Reading is lenient: a separator may be missing where the input
ends, and parts of a container that cannot be decoded are left out. Writing is strict: every
separator is written.

## Main definitions

* `Shape.decode`, `FlatNode.decode`, `FlatNode.decodeNext` — flat values.
* `decode`, `encode` — values of any node.
-/

namespace RecordStore

/-! ## Structs -/

/-- Meets a separator: it is in front, or nothing is left, or nothing but blanks where they are
skipped. -/
def meetSeparator (sep : Bytes) (blanksSkipped : Bool) : Scan Unit := do
  let c ← get
  if sep.isPrefixOf c.rest then modify (·.advance sep.length)
  else if c.atEnd || blanksSkipped && c.onlyBlanks then return
  else throw (.unmetSeparator sep)

def decodeFields (blanksSkipped : Bool) : List Field → Scan (List Scalar)
  | [] => return []
  | field :: fields => do
    let s ← decodeScalar field.prim
    meetSeparator field.sep blanksSkipped
    return s :: (← decodeFields blanksSkipped fields)

theorem length_rest_meetSeparator_le {sep : Bytes} {blanksSkipped : Bool} {c c' : Cursor}
    (h : meetSeparator sep blanksSkipped c = .ok () c') : c'.rest.length ≤ c.rest.length := by
  simp only [meetSeparator, Scan.bind_apply, Scan.get_apply] at h
  split at h
  · simp only [Scan.modify_apply, EStateM.Result.ok.injEq, true_and] at h
    rw [← h]
    exact c.length_rest_advance_le _
  · split at h
    · simp only [Scan.pure_apply, EStateM.Result.ok.injEq, true_and] at h
      exact Nat.le_of_eq (congrArg (·.rest.length) h.symm)
    · simp [Scan.throw_apply] at h

theorem length_rest_decodeFields {blanksSkipped : Bool} {fields : List Field}
    {scalars : List Scalar} {c c' : Cursor}
    (h : decodeFields blanksSkipped fields c = .ok scalars c') :
    c'.rest.length + fields.length ≤ c.rest.length := by
  induction fields generalizing scalars c with
  | nil =>
    simp only [decodeFields, Scan.pure_apply, EStateM.Result.ok.injEq] at h
    simp [h.2]
  | cons field fields ih =>
    simp only [decodeFields, Scan.bind_apply] at h
    split at h
    · rename_i s c₁ hs
      split at h
      · rename_i c₂ hm
        split at h
        · rename_i ss c₃ hf
          simp only [Scan.pure_apply, EStateM.Result.ok.injEq] at h
          have h₁ := length_rest_decodeScalar_lt hs
          have h₂ := length_rest_meetSeparator_le hm
          rw [h.2] at hf
          have h₃ := ih hf
          rw [List.length_cons]
          omega
        · simp at h
      · simp at h
    · simp at h

namespace Shape

def decode (s : Shape) : Scan (List Scalar) := do
  meetSeparator s.leading s.skipsBlanks
  decodeFields s.skipsBlanks s.fields

/-- Every struct read takes at least a byte for each field. -/
theorem length_rest_decode {s : Shape} {item : List Scalar} {c c' : Cursor}
    (h : s.decode c = .ok item c') : c'.rest.length + s.fields.length ≤ c.rest.length := by
  simp only [decode, Scan.bind_apply] at h
  split at h
  · rename_i hm
    have h₁ := length_rest_meetSeparator_le hm
    have h₂ := length_rest_decodeFields h
    omega
  · simp at h

def exhausted (s : Shape) (c : Cursor) : Bool := c.atEnd || s.skipsBlanks && c.onlyBlanks

def decodeRun (s : Shape) (c : Cursor) : Except DecodeError (List (List Scalar)) :=
  if _hs : s.isHollow || s.exhausted c then .ok []
  else
    match _h : s.decode c with
    | .error fault _ => .error fault
    | .ok item c' => (s.decodeRun c').map (item :: ·)
termination_by c.rest.length
decreasing_by
  have := length_rest_decode _h
  have : 0 < s.fields.length := by simp_all [isHollow, List.length_pos_iff]
  omega

def encode? (s : Shape) (scalars : List Scalar) : Option Bytes :=
  if s.fits scalars then
    some (s.leading ++
      (List.zipWith (fun scalar field => encodeScalar scalar ++ field.sep) scalars
        s.fields).flatten)
  else none

end Shape

/-! ## Flat values -/

/-- Reads a whole chunk; blanks may be left if `blanksAllowed`. -/
def Scan.whole {α : Type} (read : Scan α) (blanksAllowed : Bool) (chunk : Bytes) :
    Except DecodeError α :=
  match read (.start chunk) with
  | .error fault _ => .error fault
  | .ok value c =>
    if c.atEnd || blanksAllowed && c.onlyBlanks then .ok value
    else .error (.trailingInput c.rest.length)

namespace FlatNode

def decode (node : FlatNode) (chunk : Bytes) : Except DecodeError FlatValue :=
  match node.layout with
  | .primitive prim => (Scan.whole (decodeScalar prim) prim.skipsBlanks chunk).map .scalar
  | .struct shape => (Scan.whole shape.decode shape.endsInNumber chunk).map .struct
  | .structs shape =>
    if shape.isRawByte then .ok (.bytes chunk)
    else (shape.decodeRun (.start chunk)).map .structs

def decodeNext (node : FlatNode) : Scan FlatValue :=
  match node.layout with
  | .primitive prim => .scalar <$> decodeScalar prim
  | .struct shape => .struct <$> shape.decode
  | .structs _ => throw node.mismatch

theorem length_rest_decodeNext_lt {node : FlatNode} {value : FlatValue} {c c' : Cursor}
    (hn : node.layout.isHollow = false) (h : node.decodeNext c = .ok value c') :
    c'.rest.length < c.rest.length := by
  cases hl : node.layout with
    simp only [decodeNext, hl, Scan.map_apply, Scan.throw_apply] at h
  | primitive prim =>
    split at h
    · rename_i hs
      simp only [EStateM.Result.ok.injEq] at h
      rw [← h.2]
      exact length_rest_decodeScalar_lt hs
    · simp at h
  | struct shape =>
    split at h
    · rename_i hs
      simp only [EStateM.Result.ok.injEq] at h
      rw [← h.2]
      have := Shape.length_rest_decode hs
      have : 0 < shape.fields.length := by
        simpa [hl, Layout.isHollow, Shape.isHollow, List.length_pos_iff] using hn
      omega
    · simp at h
  | structs => simp at h

def encode (node : FlatNode) (value : FlatValue) : Except DecodeError Bytes :=
  match node.layout, value with
  | .primitive prim, .scalar s =>
    if s.prim = prim then .ok (encodeScalar s) else .error node.mismatch
  | .struct shape, .struct fields =>
    match shape.encode? fields with
    | some text => .ok text
    | none => .error node.mismatch
  | .structs shape, .bytes data => if shape.isRawByte then .ok data else .error node.mismatch
  | .structs shape, .structs items =>
    if shape.isRawByte then .error node.mismatch
    else
      match items.mapM shape.encode? with
      | some texts => .ok texts.flatten
      | none => .error node.mismatch
  | _, _ => .error node.mismatch

end FlatNode

/-! ## Keys and entries -/

namespace KeySpec

def decodeKey (keys : KeySpec) (text : Bytes) : Except DecodeError (Bytes × FlatValue) := do
  let key ← keys.node.decode text
  return (← keys.node.write key, key)

def keyed (keys : KeySpec) (entries : List (FlatValue × Option Value)) :
    Except DecodeError (List (Bytes × Value × Option Value)) :=
  entries.mapM fun entry => return (← keys.node.write entry.1, .flat entry.1, entry.2)

def encodeKey (keys : KeySpec) : Value → Except DecodeError Bytes
  | .flat key => return (← keys.node.encode key) ++ keys.sep
  | _ => .error keys.node.mismatch

end KeySpec

def latestEntries {α : Type} (entries : List (Bytes × α)) : Std.TreeMap Bytes α :=
  entries.foldl (fun latest (key, entry) => latest.insert key entry) ∅

/-- For each key in the order in which they first come, the entry that is pending for it. -/
def takePending {α : Type} (pending : Std.TreeMap Bytes α) : List Bytes → List α
  | [] => []
  | key :: rest =>
    match pending[key]? with
    | some entry => entry :: takePending (pending.erase key) rest
    | none => takePending pending rest

/-- A key has the place where it first comes and the entry that comes last. -/
def gatherEntries (entries : List (Bytes × Value × Option Value)) : Value :=
  .keyed (takePending (latestEntries entries) (entries.map (·.1)))

def splitPair (sep chunk : Bytes) : Except DecodeError (Bytes × Bytes) :=
  match Bytes.cut? sep chunk with
  | some sides => .ok sides
  | none => .error (.missingSeparator sep)

/-! ## Any node -/

def Schema.decodeNext : Schema → Scan Value
  | .flat node => .flat <$> node.decodeNext
  | s => throw s.mismatch

/-- The value of a whole chunk. Elements and entries that cannot be decoded are left out, but a
decoded key must have bytes. -/
def decode : Schema → Bytes → Except DecodeError Value
  | .flat node, chunk => (node.decode chunk).map .flat
  | .sequence _ element sep _, chunk =>
    .ok (.seq ((Records.split sep chunk).filterMap fun piece => (decode element piece).toOption))
  | .set _ keys, chunk => do
    let entries := (Records.split keys.sep chunk).filterMap fun record =>
      (keys.node.decode record).toOption.map fun key => (key, none)
    return gatherEntries (← keys.keyed entries)
  | .map _ keys value sep, chunk => do
    let entries := (Records.mapEntries keys.sep sep chunk).filterMap fun
      | .cut keyText valueText => do
        let key ← (keys.node.decode keyText).toOption
        return (key, some (← (decode value valueText).toOption))
      | .broken _ => none
    return gatherEntries (← keys.keyed entries)
  | .pair _ first second sep, chunk => do
    let (left, right) ← splitPair sep chunk
    return .pair (← decode first left) (← decode second right)

def encode : Schema → Value → Except DecodeError Bytes
  | .flat node, .flat value => node.encode value
  | .sequence _ element sep _, .seq items => do
    let texts ← items.mapM fun item => return (← encode element item) ++ sep
    return texts.flatten
  | s@(.set _ keys), .keyed entries => do
    let texts ← entries.mapM fun (key, value) => do
      let keyText ← keys.encodeKey key
      match value with
      | none => return keyText
      | some _ => throw s.mismatch
    return texts.flatten
  | s@(.map _ keys value sep), .keyed entries => do
    let texts ← entries.mapM fun (key, item) => do
      let keyText ← keys.encodeKey key
      match item with
      | some item => return keyText ++ (← encode value item) ++ sep
      | none => throw s.mismatch
    return texts.flatten
  | .pair _ first second sep, .pair left right => do
    let leftText ← encode first left
    return leftText ++ sep ++ (← encode second right)
  | s, _ => .error s.mismatch

end RecordStore
