import RecordStore.Proofs.JointRows

/-!
# Schemas that differ in storage order

Two schemas are twins if they are the same but for the order in which the keys of keyed containers
are stored, and for the format texts of their nodes. Neither has a part in how text is read and
written, so twins decode, encode and stage alike.

## Main definitions

* `Schema.Twins` — schemas that are the same but for storage order.

## Main statements

* `Schema.Twins.decode_eq`, `Schema.Twins.encode_eq` — twins read and write alike.
* `Schema.Twins.restage?_eq`, `KeySpec.Twins.entryOf?_eq` — they stage alike.
* `KeySpec.arranged_perm` — the entries of a keyed container are the same in any storage order.
-/

namespace RecordStore

/-! ## Twins -/

structure FlatNode.Twins (node node' : FlatNode) : Prop where
  ordinal : node.label.ordinal = node'.label.ordinal
  layout : node.layout = node'.layout

structure KeySpec.Twins (keys keys' : KeySpec) : Prop where
  node : keys.node.Twins keys'.node
  sep : keys.sep = keys'.sep
  args : keys.args = keys'.args

/-- Schemas that are the same but for the storage order of keys and the format texts. -/
inductive Schema.Twins : Schema → Schema → Prop
  | flat {node node' : FlatNode} (hn : node.Twins node') : Twins (.flat node) (.flat node')
  | sequence {label label' : Label} {element element' : Schema} {sep : Bytes}
    {args : List String} (hl : label.ordinal = label'.ordinal) (h : Twins element element') :
    Twins (.sequence label element sep args) (.sequence label' element' sep args)
  | set {label label' : Label} {keys keys' : KeySpec} (hl : label.ordinal = label'.ordinal)
    (hk : keys.Twins keys') : Twins (.set label keys) (.set label' keys')
  | map {label label' : Label} {keys keys' : KeySpec} {value value' : Schema} {sep : Bytes}
    (hl : label.ordinal = label'.ordinal) (hk : keys.Twins keys') (h : Twins value value') :
    Twins (.map label keys value sep) (.map label' keys' value' sep)
  | pair {label label' : Label} {first first' second second' : Schema} {sep : Bytes}
    (hl : label.ordinal = label'.ordinal) (h₁ : Twins first first') (h₂ : Twins second second') :
    Twins (.pair label first second sep) (.pair label' first' second' sep)

/-! ## Flat nodes -/

namespace FlatNode.Twins

variable {node node' : FlatNode}

theorem decode_eq (h : node.Twins node') : node.decode = node'.decode := by
  funext chunk
  rw [decode, decode, h.layout]

theorem mismatch_eq (h : node.Twins node') : node.mismatch = node'.mismatch :=
  congrArg DecodeError.shapeMismatch h.ordinal

theorem encode_eq (h : node.Twins node') : node.encode = node'.encode := by
  funext value
  rw [encode.eq_def, encode.eq_def, h.layout, h.mismatch_eq]

theorem write_eq (h : node.Twins node') : node.write = node'.write := by
  funext value
  rw [write.eq_def, write.eq_def, h.layout, h.mismatch_eq]

theorem keyBytes_eq (h : node.Twins node') (key : Value) :
    (Schema.flat node).keyBytes key = (Schema.flat node').keyBytes key := by
  cases key with
  | flat value => exact congrFun h.write_eq value
  | _ => exact congrArg Except.error h.mismatch_eq

theorem decodeNext_eq (h : node.Twins node') : node.decodeNext = node'.decodeNext := by
  rw [decodeNext, decodeNext, h.layout, h.mismatch_eq]

theorem streamed_eq (h : node.Twins node') (c : Cursor) : node.streamed c = node'.streamed c := by
  fun_induction node.streamed c with
  | case1 c hn =>
    rw [streamed, dif_pos (h.layout ▸ hn)]
  | case2 c hn cause c' hd =>
    rw [h.decodeNext_eq] at hd
    rw [streamed, dif_neg (h.layout ▸ hn)]
    split <;> simp_all
  | case3 c hn value c' hd ih =>
    rw [h.decodeNext_eq] at hd
    rw [streamed.eq_def node', dif_neg (h.layout ▸ hn)]
    split <;> simp_all

theorem rows_eq (h : node.Twins node') (outer : Option Bytes) (chunks : List Bytes) :
    node.rows outer chunks = node'.rows outer chunks := by
  simp only [rows, decoded, h.layout, h.decode_eq, h.streamed_eq]

end FlatNode.Twins

/-! ## Reading and writing -/

namespace KeySpec.Twins

variable {keys keys' : KeySpec}

theorem decodeKey_eq (h : keys.Twins keys') : keys.decodeKey = keys'.decodeKey := by
  funext text
  rw [decodeKey, decodeKey, h.node.decode_eq, h.node.write_eq]

theorem keyed_eq (h : keys.Twins keys') : keys.keyed = keys'.keyed := by
  funext entries
  rw [keyed, keyed, h.node.write_eq]

theorem encodeKey_eq (h : keys.Twins keys') : keys.encodeKey = keys'.encodeKey := by
  funext key
  rw [encodeKey.eq_def, encodeKey.eq_def, h.node.encode_eq, h.sep, h.node.mismatch_eq]

theorem key?_eq (h : keys.Twins keys') : keys.key? = keys'.key? := by
  funext text
  rw [key?, key?, h.decodeKey_eq]

end KeySpec.Twins

namespace Schema.Twins

variable {s s' : Schema}

theorem ordinal_eq (h : s.Twins s') : s.ordinal = s'.ordinal := by
  cases h with
  | flat hn => exact hn.ordinal
  | sequence hl | set hl | map hl | pair hl => exact hl

theorem nodes (h : s.Twins s') : List.Forall₂ Twins s.nodes s'.nodes := by
  induction h with
  | flat hn => exact .cons (.flat hn) .nil
  | sequence hl h ih => exact .cons (.sequence hl h) ih
  | set hl hk => exact .cons (.set hl hk) (.cons (.flat hk.node) .nil)
  | map hl hk h ih => exact .cons (.map hl hk h) (.cons (.flat hk.node) ih)
  | pair hl h₁ h₂ ih₁ ih₂ => exact .cons (.pair hl h₁ h₂) (List.rel_append ih₁ ih₂)

/-- What holds of the nodes of a schema whatever their order and text holds of its twin. -/
theorem forall_nodes (h : s.Twins s') {P : Schema → Prop}
    (hP : ∀ node node' : Schema, node.Twins node' → P node → P node')
    (hs : ∀ node ∈ s.nodes, P node) : ∀ node ∈ s'.nodes, P node := by
  have hnodes := h.nodes
  generalize s.nodes = nodes, s'.nodes = nodes' at hs hnodes
  induction hnodes with
  | nil => simp
  | cons hnode _ ih =>
    obtain ⟨hp, hs⟩ := List.forall_mem_cons.1 hs
    exact List.forall_mem_cons.2 ⟨hP _ _ hnode hp, ih hs⟩

theorem argsFit (h : s.Twins s') (hs : s.ArgsFit) : s'.ArgsFit := by
  refine h.forall_nodes (fun node node' ht hp => ?_) hs
  cases ht with
  | set _ hk | map _ hk _ => rwa [ownArgs, ← hk.args]
  | _ => exact hp

theorem widthsFit (h : s.Twins s') (hs : s.WidthsFit) : s'.WidthsFit := by
  induction h with
  | flat hn =>
    rw [WidthsFit, ← hn.layout]
    exact hs
  | sequence _ _ ih => exact ih hs
  | set => trivial
  | map _ _ _ ih => exact ih hs
  | pair _ _ _ ih₁ ih₂ => exact ⟨ih₁ hs.1, ih₂ hs.2⟩

theorem separated (h : s.Twins s') (hs : s.Separated) : s'.Separated := by
  induction h with
  | flat hn =>
    rw [Separated, ← hn.layout]
    exact hs
  | sequence _ _ ih => exact ⟨hs.1, ih hs.2⟩
  | set _ hk => exact ⟨hk.sep ▸ hs.1, hk.node.layout ▸ hs.2⟩
  | map _ hk _ ih => exact ⟨hk.sep ▸ hs.1, hk.node.layout ▸ hs.2.1, hs.2.2.1, ih hs.2.2.2⟩
  | pair _ _ _ ih₁ ih₂ => exact ⟨hs.1, ih₁ hs.2.1, ih₂ hs.2.2⟩

theorem decode_eq (h : s.Twins s') (chunk : Bytes) : decode s chunk = decode s' chunk := by
  induction h generalizing chunk with
  | flat hn => rw [decode, decode, hn.decode_eq]
  | sequence _ _ ih => simp only [decode, ih]
  | set _ hk => simp only [decode, hk.sep, hk.node.decode_eq, hk.keyed_eq]
  | map _ hk _ ih => simp only [decode, hk.sep, hk.node.decode_eq, hk.keyed_eq, ih]
  | pair _ _ _ ih₁ ih₂ => simp only [decode, ih₁, ih₂]

theorem encode_eq (h : s.Twins s') (value : Value) : encode s value = encode s' value := by
  have hmismatch {s s' : Schema} (h : s.Twins s') : s.mismatch = s'.mismatch :=
    congrArg DecodeError.shapeMismatch h.ordinal_eq
  induction h generalizing value with
  | flat hn =>
    cases value with
    | flat value => rw [encode, encode, hn.encode_eq]
    | _ => simp only [encode, hmismatch (.flat hn)]
  | sequence hl h ih =>
    cases value with
    | seq items => simp only [encode, ih]
    | _ => simp only [encode, hmismatch (.sequence hl h)]
  | set hl hk =>
    cases value with
    | keyed entries => simp only [encode, hk.encodeKey_eq, hmismatch (.set hl hk)]
    | _ => simp only [encode, hmismatch (.set hl hk)]
  | map hl hk h ih =>
    cases value with
    | keyed entries => simp only [encode, hk.encodeKey_eq, ih, hmismatch (.map hl hk h)]
    | _ => simp only [encode, hmismatch (.map hl hk h)]
  | pair hl h₁ h₂ ih₁ ih₂ =>
    cases value with
    | pair left right => simp only [encode, ih₁, ih₂]
    | _ => simp only [encode, hmismatch (.pair hl h₁ h₂)]

/-! ## Staging -/

theorem canonical?_eq (h : s.Twins s') (chunk : Bytes) :
    canonical? s chunk = canonical? s' chunk := by
  simp only [canonical?, h.decode_eq, h.encode_eq]

theorem restage?_eq (h : s.Twins s') (delim : Bytes) : restage? s delim = restage? s' delim := by
  funext chunk
  rw [restage?, restage?, h.canonical?_eq]

theorem restagePair?_eq {first first' second second' : Schema} (h₁ : first.Twins first')
    (h₂ : second.Twins second') (sep : Bytes) (outer : Option Bytes) :
    restagePair? first second sep outer = restagePair? first' second' sep outer := by
  funext chunk
  simp only [restagePair?, h₁.restage?_eq, h₂.canonical?_eq]

end Schema.Twins

theorem KeySpec.Twins.entryOf?_eq {keys keys' : KeySpec} {value value' : Schema}
    (hk : keys.Twins keys') (h : value.Twins value') (sep : Bytes) :
    entryOf? keys value sep = entryOf? keys' value' sep := by
  funext record
  cases record <;> simp only [entryOf?, hk.key?_eq, h.restage?_eq]

/-- The entries of a keyed container are the same in any storage order. -/
theorem KeySpec.arranged_perm {α : Type} (keys keys' : KeySpec) (entries : List (Bytes × α)) :
    (keys.arranged entries).Perm (keys'.arranged entries) :=
  (StorageOrder.arrange_perm ..).trans (StorageOrder.arrange_perm ..).symm

end RecordStore
