import RecordStore.Codec.Text
import RecordStore.Proofs.Outcomes
import Mathlib.Algebra.BigOperators.Group.List.Lemmas
import Mathlib.Algebra.GroupWithZero.Nat

/-!
# Values of flat nodes

What is decoded from text has the form of its node, and values of that form have a text and a
binary form, from which they are read back.

## Main definitions

* `Layout.Holds` — whether a value has the form of a layout.
* `FlatValue.stored`, `Layout.text` — the binary form and the text of a value.
* `FlatValue.count` — how many elements of its node a value consists of.

## Main statements

* `FlatNode.write_eq`, `FlatNode.read_stored` — the binary form is written and read back.
* `FlatNode.length_stored` — how long it is.
* `FlatNode.encode_eq` — the text is written.
* `FlatNode.holds_of_decode` — decoded values have the form of their node.
-/

namespace RecordStore

/-! ## Binary forms -/

namespace Scalar

@[simp] theorem length_toBytes (s : Scalar) : s.toBytes.length = s.prim.width := by
  simp [toBytes]

theorem ofBytes_toBytes (s : Scalar) (rest : Bytes) :
    ofBytes s.prim (s.toBytes ++ rest) = .ok s := by
  have hfront : (s.toBytes ++ rest).take s.prim.width = s.toBytes :=
    List.take_left' s.length_toBytes
  have hn : s.toBytes.toNat = s.bits.toNat := by
    have := s.bits.isLt
    rw [toBytes, Bytes.toNat_ofNat, Nat.pow_eq, Nat.mod_eq_of_lt]
    rwa [show (256 : Nat) = 2 ^ 8 from rfl, ← Nat.pow_mul]
  simp only [ofBytes, hfront]
  rw [dif_pos s.length_toBytes]
  congr 2
  exact BitVec.eq_of_toNat_eq (by simpa using hn)

end Scalar

def FlatValue.stored : FlatValue → Bytes
  | .scalar s => s.toBytes
  | .struct fields => fields.flatMap Scalar.toBytes
  | .structs items => (items.map fun item => item.flatMap Scalar.toBytes).flatten
  | .bytes data => data

/-- How many elements of its node a value consists of. -/
def FlatValue.count : FlatValue → ℕ
  | .scalar _ | .struct _ => 1
  | .structs items => items.length
  | .bytes data => data.length

def fieldsText (scalars : List Scalar) (fields : List Field) : Bytes :=
  (List.zipWith (fun scalar field => encodeScalar scalar ++ field.sep) scalars fields).flatten

def Shape.text (s : Shape) (scalars : List Scalar) : Bytes :=
  s.leading ++ fieldsText scalars s.fields

def Layout.text : Layout → FlatValue → Bytes
  | _, .scalar s => encodeScalar s
  | struct shape, .struct fields => shape.text fields
  | structs shape, .structs items => items.flatMap shape.text
  | _, .bytes data => data
  | _, _ => []

def Layout.Holds : Layout → FlatValue → Prop
  | primitive prim, .scalar s => s.prim = prim
  | struct shape, .struct fields => shape.fits fields = true
  | structs shape, .bytes _ => shape.isRawByte = true
  | structs shape, .structs items =>
    shape.isRawByte = false ∧ ∀ item ∈ items, shape.fits item = true
  | _, _ => False

namespace Shape

variable {s : Shape} {item : List Scalar}

theorem fits_iff : s.fits item = true ↔ item.map (·.prim) = s.fields.map (·.prim) := by
  simp [fits]

theorem width_eq_sum (s : Shape) : s.width = ((s.fields.map (·.prim)).map Prim.width).sum := by
  rw [width, List.sum_eq_foldr, List.foldr_map, List.foldr_map]

theorem length_stored_of_fits (h : s.fits item = true) :
    (item.flatMap Scalar.toBytes).length = s.width := by
  rw [width_eq_sum, ← fits_iff.1 h, List.length_flatMap, List.map_map]
  simp [Function.comp_def]

theorem length_of_mem_stored {items : List (List Scalar)}
    (h : ∀ item ∈ items, s.fits item = true) :
    ∀ part ∈ items.map fun item => item.flatMap Scalar.toBytes, part.length = s.width := by
  intro part hp
  obtain ⟨item, hi, rfl⟩ := List.mem_map.1 hp
  exact length_stored_of_fits (h item hi)

theorem width_pos (h : s.isHollow = false) : 0 < s.width := by
  cases hf : s.fields with
  | nil => simp [isHollow, hf] at h
  | cons field fields =>
    have := field.prim.width_pos
    rw [width, hf, List.foldr_cons]
    omega

theorem width_eq_one {s : Shape} (h : s.isRawByte = true) : s.width = 1 := by
  unfold isRawByte at h
  split at h
  · rename_i hf
    simp [width, hf, Prim.width]
  · rename_i hf
    simp [width, hf, Prim.width]
  · cases h

theorem readPrims_stored (item : List Scalar) (rest : Bytes) :
    readPrims (item.map (·.prim)) (item.flatMap Scalar.toBytes ++ rest) = .ok item := by
  induction item with
  | nil => rfl
  | cons s item ih =>
    rw [List.map_cons, readPrims, List.flatMap_cons, List.append_assoc, s.ofBytes_toBytes,
      List.drop_left' s.length_toBytes, ih]
    rfl

theorem read_stored (h : s.fits item = true) (rest : Bytes) :
    s.read (item.flatMap Scalar.toBytes ++ rest) = .ok item := by
  rw [read, ← fits_iff.1 h, readPrims_stored]

end Shape

theorem Layout.width_pos {layout : Layout} (h : layout.isHollow = false) : 0 < layout.width := by
  cases layout with
  | primitive prim => exact prim.width_pos
  | struct shape => exact Shape.width_pos h
  | structs shape => exact Shape.width_pos h

/-- Byte strings of one width in a row, cut at that width. -/
theorem Bytes.pieces_flatten {width : Nat} (hw : 0 < width) {parts : List Bytes}
    (h : ∀ part ∈ parts, part.length = width) : Bytes.pieces width parts.flatten = parts := by
  induction parts with
  | nil => simp [pieces]
  | cons part parts ih =>
    have hp : part.length = width := h part (by simp)
    have hne : part ≠ [] := List.length_pos_iff.1 (by omega)
    rw [pieces, List.flatten_cons, dif_pos ⟨hw, by simp [hne]⟩, List.take_left' hp,
      List.drop_left' hp, ih fun part hp => h part (List.mem_cons_of_mem _ hp)]

theorem Bytes.length_flatten {width : Nat} {parts : List Bytes}
    (h : ∀ part ∈ parts, part.length = width) : parts.flatten.length = width * parts.length := by
  induction parts with
  | nil => rfl
  | cons part parts ih =>
    rw [List.flatten_cons, List.length_append, h part (by simp),
      ih fun part hp => h part (List.mem_cons_of_mem _ hp), List.length_cons, Nat.mul_succ,
      Nat.add_comm]

namespace FlatNode

variable {node : FlatNode} {value : FlatValue}

theorem write_eq (h : node.layout.Holds value) : node.write value = .ok value.stored := by
  unfold write
  cases hl : node.layout with
  | primitive prim =>
    cases value <;> simp_all [Layout.Holds, FlatValue.stored]
  | struct shape =>
    cases value <;> simp_all [Layout.Holds, FlatValue.stored, Shape.write?]
  | structs shape =>
    cases value with
    | structs items =>
      rw [hl] at h
      have hm : items.mapM shape.write? =
          some (items.map fun item => item.flatMap Scalar.toBytes) :=
        mapM_eq_some fun item hi => if_pos (h.2 item hi)
      simp [h.1, hm, FlatValue.stored]
    | bytes data =>
      rw [hl] at h
      have hr : shape.isRawByte = true := h
      simp [hr, FlatValue.stored]
    | _ => simp_all [Layout.Holds]

theorem read_stored (hn : node.layout.isHollow = false) (h : node.layout.Holds value) :
    node.read value.stored = .ok value := by
  unfold read
  cases hl : node.layout with
  | primitive prim =>
    cases value with
    | scalar s =>
      rw [hl] at h
      obtain rfl : s.prim = prim := h
      have := s.ofBytes_toBytes []
      rw [List.append_nil] at this
      simp only [FlatValue.stored, this]
      rfl
    | _ => simp_all [Layout.Holds]
  | struct shape =>
    cases value with
    | struct fields =>
      rw [hl] at h
      have := Shape.read_stored h []
      rw [List.append_nil] at this
      simp only [FlatValue.stored, this]
      rfl
    | _ => simp_all [Layout.Holds]
  | structs shape =>
    rw [hl] at h hn
    cases value with
    | structs items =>
      have hw := Shape.width_pos hn
      have hlen := Shape.length_of_mem_stored h.2
      have hmod : (items.map fun item => item.flatMap Scalar.toBytes).flatten.length %
          shape.width = 0 := by
        rw [Bytes.length_flatten hlen, Nat.mul_mod_right]
      have hread : ((items.map fun item => item.flatMap Scalar.toBytes).mapM shape.read) =
          .ok items := by
        rw [List.mapM_map, mapM_eq_ok (g := id), List.map_id]
        intro item hi
        have := Shape.read_stored (h.2 item hi) []
        rwa [List.append_nil] at this
      simp only [FlatValue.stored, h.1, Bool.false_eq_true, if_false, hmod, hw.ne', ne_eq,
        not_true_eq_false, or_self, Bytes.pieces_flatten hw hlen, hread]
      rfl
    | bytes data =>
      have hr : shape.isRawByte = true := h
      simp [hr, FlatValue.stored]
    | _ => exact h.elim

theorem encode_eq (h : node.layout.Holds value) :
    node.encode value = .ok (node.layout.text value) := by
  unfold encode
  cases hl : node.layout with
  | primitive prim => cases value <;> simp_all [Layout.Holds, Layout.text]
  | struct shape =>
    cases value <;>
      simp_all [Layout.Holds, Shape.encode?, Layout.text, Shape.text, fieldsText]
  | structs shape =>
    rw [hl] at h
    cases value with
    | structs items =>
      have hm : items.mapM shape.encode? = some (items.map shape.text) :=
        mapM_eq_some fun item hi => if_pos (h.2 item hi)
      simp [h.1, hm, Layout.text, List.flatMap_def]
    | bytes data =>
      have hr : shape.isRawByte = true := h
      simp [hr, Layout.text]
    | _ => exact h.elim

/-- A value takes the width of its node for each of its elements. -/
theorem length_stored (h : node.layout.Holds value) :
    value.stored.length = node.layout.width * value.count := by
  cases hn : node.layout with
  | primitive prim =>
    cases value with
    | scalar s =>
      rw [hn] at h
      obtain rfl : s.prim = prim := h
      rw [FlatValue.stored, s.length_toBytes, FlatValue.count, Nat.mul_one, Layout.width]
    | _ => simp_all [Layout.Holds]
  | struct shape =>
    cases value with
    | struct fields =>
      rw [hn] at h
      rw [FlatValue.stored, Shape.length_stored_of_fits h, FlatValue.count, Nat.mul_one,
        Layout.width]
    | _ => simp_all [Layout.Holds]
  | structs shape =>
    rw [hn] at h
    cases value with
    | structs items =>
      rw [FlatValue.stored, Bytes.length_flatten (Shape.length_of_mem_stored h.2),
        List.length_map, FlatValue.count, Layout.width]
    | bytes data =>
      rw [FlatValue.stored, FlatValue.count, Layout.width, Shape.width_eq_one h, Nat.one_mul]
    | _ => exact h.elim

/-- Only runs consist of another number of elements than one. -/
theorem count_eq_one (hl : ∀ shape, node.layout ≠ .structs shape)
    (h : node.layout.Holds value) : value.count = 1 := by
  cases hn : node.layout with
  | structs shape => exact absurd hn (hl shape)
  | _ => cases value <;> simp_all [Layout.Holds, FlatValue.count]

end FlatNode

/-! ## Decoded values -/

theorem prim_of_decodeScalar {prim : Prim} {s : Scalar} {c c' : Cursor}
    (h : decodeScalar prim c = .ok s c') : s.prim = prim := by
  cases hk : prim.kind <;> simp only [decodeScalar, hk, Scan.bind_apply] at h
  all_goals
    split at h
    · simp only [Scan.pure_apply, EStateM.Result.ok.injEq] at h
      rw [← h.1, Scalar.prim_ofInt]
    · simp at h

theorem prims_of_decodeFields {blanksSkipped : Bool} {fields : List Field}
    {scalars : List Scalar} {c c' : Cursor}
    (h : decodeFields blanksSkipped fields c = .ok scalars c') :
    scalars.map (·.prim) = fields.map (·.prim) := by
  induction fields generalizing scalars c c' with
  | nil =>
    simp only [decodeFields, Scan.pure_apply, EStateM.Result.ok.injEq] at h
    simp [← h.1]
  | cons field fields ih =>
    simp only [decodeFields, Scan.bind_apply] at h
    split at h
    · rename_i s c₁ hs
      split at h
      · split at h
        · rename_i hf
          simp only [Scan.pure_apply, EStateM.Result.ok.injEq] at h
          rw [← h.1, List.map_cons, List.map_cons, prim_of_decodeScalar hs, ih hf]
        · simp at h
      · simp at h
    · simp at h

theorem Shape.fits_of_decode {s : Shape} {item : List Scalar} {c c' : Cursor}
    (h : s.decode c = .ok item c') : s.fits item = true := by
  simp only [decode, Scan.bind_apply] at h
  split at h
  · exact fits_iff.2 (prims_of_decodeFields h)
  · simp at h

theorem Shape.fits_of_decodeRun {s : Shape} {items : List (List Scalar)} {c : Cursor}
    (h : s.decodeRun c = .ok items) : ∀ item ∈ items, s.fits item = true := by
  fun_induction decodeRun s c generalizing items with
  | case1 c hs =>
    cases h
    simp
  | case2 c hs fault c' hd => cases h
  | case3 c hs item c' hd ih =>
    cases hr : s.decodeRun c' with
    | error fault =>
      rw [hr] at h
      cases h
    | ok rest =>
      rw [hr] at h
      cases h
      intro item' hi
      rcases List.mem_cons.1 hi with rfl | hi
      · exact fits_of_decode hd
      · exact ih hr item' hi

theorem Scan.whole_eq_ok {α : Type} {read : Scan α} {blanksAllowed : Bool} {chunk : Bytes} {a : α}
    (h : Scan.whole read blanksAllowed chunk = .ok a) :
    ∃ c, read (.start chunk) = .ok a c ∧ (c.atEnd || blanksAllowed && c.onlyBlanks) = true := by
  unfold Scan.whole at h
  split at h
  · cases h
  · rename_i c hr
    split at h
    · rename_i he
      cases h
      exact ⟨c, hr, he⟩
    · cases h

namespace FlatNode

variable {node : FlatNode} {value : FlatValue}

theorem holds_of_decode {chunk : Bytes} (h : node.decode chunk = .ok value) :
    node.layout.Holds value := by
  unfold decode at h
  cases hl : node.layout with
  | primitive prim =>
    simp only [hl] at h
    cases hw : Scan.whole (decodeScalar prim) prim.skipsBlanks chunk with
    | error => rw [hw] at h; cases h
    | ok s =>
      rw [hw] at h
      cases h
      obtain ⟨c, hd, -⟩ := Scan.whole_eq_ok hw
      exact prim_of_decodeScalar hd
  | struct shape =>
    simp only [hl] at h
    cases hw : Scan.whole shape.decode shape.endsInNumber chunk with
    | error => rw [hw] at h; cases h
    | ok fields =>
      rw [hw] at h
      cases h
      obtain ⟨c, hd, -⟩ := Scan.whole_eq_ok hw
      exact Shape.fits_of_decode hd
  | structs shape =>
    simp only [hl] at h
    split at h
    · rename_i hr
      cases h
      exact hr
    · rename_i hr
      cases hd : shape.decodeRun (.start chunk) with
      | error => rw [hd] at h; cases h
      | ok items =>
        rw [hd] at h
        cases h
        exact ⟨by simpa using hr, Shape.fits_of_decodeRun hd⟩

theorem holds_of_decodeNext {c c' : Cursor} (h : node.decodeNext c = .ok value c') :
    node.layout.Holds value := by
  cases hl : node.layout with
    simp only [decodeNext, hl, Scan.map_apply, Scan.throw_apply] at h
  | primitive prim =>
    split at h
    · rename_i hs
      simp only [EStateM.Result.ok.injEq] at h
      rw [← h.1]
      exact prim_of_decodeScalar hs
    · simp at h
  | struct shape =>
    split at h
    · rename_i hs
      simp only [EStateM.Result.ok.injEq] at h
      rw [← h.1]
      exact Shape.fits_of_decode hs
    · simp at h
  | structs => simp at h

end FlatNode

end RecordStore
