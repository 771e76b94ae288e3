import RecordStore.Proofs.FlatValues
import RecordStore.Proofs.ParsedSchemas

/-!
# Binary forms of keys

Nothing stands between the fields of a binary form, so what a field is read from is known by the
widths before it alone. Widths are kept by writing and by reading; hence both ways around nothing is
lost, and two values of a node never have the same key.

## Main definitions

* `Layout.FitsLength` — whether byte strings of a length can be values of a layout.

## Main statements

* `FlatNode.write_eq_ok_iff` — which values have a binary form, and which one.
* `FlatNode.exists_read` — every byte string of a length that fits is a binary form.
* `keyBytes_faithful` — keys are read back as their values, and bytes as themselves.
-/

namespace RecordStore

/-! ## Numbers and pieces -/

namespace Bytes

/-- Bytes are the digits of the number that they give. -/
theorem ofNat_toNat (bytes : Bytes) : ofNat bytes.length bytes.toNat = bytes := by
  induction bytes with
  | nil => rfl
  | cons b rest ih =>
    have hb : b.toNat < 256 := b.toNat_lt
    have hdigit : (b.toNat + 256 * toNat rest) % 256 = b.toNat := by omega
    have hrest : (b.toNat + 256 * toNat rest) / 256 = toNat rest := by omega
    rw [List.length_cons, toNat, ofNat, hdigit, hrest, ih, UInt8.ofNat_toNat]

variable {width : ℕ}

theorem flatten_pieces (hw : 0 < width) (bytes : Bytes) : (pieces width bytes).flatten = bytes := by
  fun_induction pieces width bytes with
  | case1 bytes h ih => rw [List.flatten_cons, ih, List.take_append_drop]
  | case2 bytes h => simp_all

/-- If nothing is left over, all pieces have the same length. -/
theorem length_of_mem_pieces {bytes : Bytes} (hd : width ∣ bytes.length) :
    ∀ part ∈ pieces width bytes, part.length = width := by
  fun_induction pieces width bytes with
  | case1 bytes h ih =>
    have hle : width ≤ bytes.length := Nat.le_of_dvd (List.length_pos_iff.2 h.2) hd
    have hrest : width ∣ (bytes.drop width).length := by
      rw [List.length_drop]
      exact Nat.dvd_sub hd (dvd_refl width)
    exact List.forall_mem_cons.2 ⟨List.length_take_of_le hle, ih hrest⟩
  | case2 => simp

end Bytes

/-! ## Structs -/

/-- Bytes in front of others are a scalar of every primitive of their length. -/
theorem Scalar.exists_ofBytes {prim : Prim} {bytes : Bytes} (h : prim.width ≤ bytes.length) :
    ∃ s, ofBytes prim bytes = .ok s ∧ s.prim = prim ∧ s.toBytes = bytes.take prim.width := by
  have hfront : (bytes.take prim.width).length = prim.width := List.length_take_of_le h
  refine ⟨_, dif_pos hfront, rfl, ?_⟩
  have hdigits := Bytes.ofNat_toNat (bytes.take prim.width)
  rw [hfront] at hdigits
  rw [toBytes, BitVec.toNat_ofNatLT, hdigits]

namespace Shape

theorem exists_readPrims {prims : List Prim} {bytes : Bytes}
    (h : bytes.length = (prims.map Prim.width).sum) :
    ∃ item, readPrims prims bytes = .ok item ∧ item.map (·.prim) = prims ∧
      item.flatMap Scalar.toBytes = bytes := by
  induction prims generalizing bytes with
  | nil => exact ⟨[], rfl, rfl, (List.length_eq_zero_iff.1 h).symm⟩
  | cons prim prims ih =>
    rw [List.map_cons, List.sum_cons] at h
    obtain ⟨s, hs, hprim, hfront⟩ := @Scalar.exists_ofBytes prim bytes (by omega)
    obtain ⟨item, hitem, hprims, hrest⟩ := @ih (bytes.drop prim.width) (by
      rw [List.length_drop]
      omega)
    refine ⟨s :: item, ?_, by rw [List.map_cons, hprim, hprims], ?_⟩
    · rw [readPrims, hs, ok_bind, hitem]
      rfl
    · rw [List.flatMap_cons, hfront, hrest, List.take_append_drop]

variable {s : Shape}

theorem fits_of_write? {item : List Scalar} (h : (s.write? item).isSome) : s.fits item = true := by
  by_contra hf
  simp [write?, hf] at h

theorem exists_read {bytes : Bytes} (h : bytes.length = s.width) :
    ∃ item, s.read bytes = .ok item ∧ s.fits item = true ∧ item.flatMap Scalar.toBytes = bytes := by
  obtain ⟨item, hread, hprims, hstored⟩ := exists_readPrims (h.trans s.width_eq_sum)
  exact ⟨item, hread, fits_iff.2 hprims, hstored⟩

theorem exists_mapM_read {parts : List Bytes} (h : ∀ part ∈ parts, part.length = s.width) :
    ∃ items, parts.mapM s.read = .ok items ∧ (∀ item ∈ items, s.fits item = true) ∧
      (items.map fun item => item.flatMap Scalar.toBytes) = parts := by
  induction parts with
  | nil => exact ⟨[], rfl, by simp, rfl⟩
  | cons part parts ih =>
    obtain ⟨hpart, hparts⟩ := List.forall_mem_cons.1 h
    obtain ⟨item, hread, hfits, hstored⟩ := exists_read hpart
    obtain ⟨items, hreads, hfit, hall⟩ := ih hparts
    refine ⟨item :: items, ?_, List.forall_mem_cons.2 ⟨hfits, hfit⟩, ?_⟩
    · rw [List.mapM_cons, hread, ok_bind, hreads]
      rfl
    · rw [List.map_cons, hstored, hall]

end Shape

/-! ## Nodes -/

/-- Whether byte strings of a length can be values of a layout: one primitive, one struct, or any
number of structs in a row. -/
def Layout.FitsLength : Layout → ℕ → Prop
  | primitive prim, n => n = prim.width
  | struct shape, n => n = shape.width
  | structs shape, n => shape.isRawByte = true ∨ shape.width ∣ n

namespace FlatNode

variable {node : FlatNode} {value : FlatValue} {bytes : Bytes}

/-- A value of another form than its node has none in bytes. -/
theorem holds_of_write (h : node.write value = .ok bytes) : node.layout.Holds value := by
  unfold write at h
  cases hl : node.layout with
  | primitive prim =>
    cases value with
    | scalar s =>
      simp only [hl] at h
      split at h
      · assumption
      · cases h
    | _ => simp [hl] at h
  | struct shape =>
    cases value with
    | struct fields =>
      simp only [hl] at h
      split at h
      · rename_i hw
        exact Shape.fits_of_write? (Option.isSome_of_eq_some hw)
      · cases h
    | _ => simp [hl] at h
  | structs shape =>
    cases value with
    | structs items =>
      simp only [hl] at h
      split at h
      · cases h
      rename_i hraw
      split at h
      · rename_i hw
        exact ⟨by simpa using hraw, fun item hi =>
          Shape.fits_of_write? (isSome_of_mapM_eq_some hw item hi)⟩
      · cases h
    | bytes data =>
      simp only [hl] at h
      split at h
      · assumption
      · cases h
    | _ => simp [hl] at h

theorem write_eq_ok_iff :
    node.write value = .ok bytes ↔ node.layout.Holds value ∧ value.stored = bytes := by
  constructor
  · intro h
    have hv := holds_of_write h
    rw [write_eq hv] at h
    exact ⟨hv, Except.ok.inj h⟩
  · rintro ⟨hv, rfl⟩
    exact write_eq hv

/-- Bytes of a length that fits are a value of the node, and its binary form. -/
theorem exists_read (hn : node.layout.isHollow = false)
    (h : node.layout.FitsLength bytes.length) :
    ∃ value, node.read bytes = .ok value ∧ node.layout.Holds value ∧ value.stored = bytes := by
  unfold read
  cases hl : node.layout with dsimp only
  | primitive prim =>
    rw [hl] at h
    obtain ⟨s, hs, hprim, hstored⟩ := Scalar.exists_ofBytes (Nat.le_of_eq (Eq.symm h))
    refine ⟨.scalar s, by rw [hs]; rfl, hprim, hstored.trans ?_⟩
    exact List.take_of_length_le (Nat.le_of_eq h)
  | struct shape =>
    rw [hl] at h
    obtain ⟨item, hread, hfits, hstored⟩ := Shape.exists_read h
    exact ⟨.struct item, by rw [hread]; rfl, hfits, hstored⟩
  | structs shape =>
    rw [hl] at h hn
    cases hraw : shape.isRawByte with
    | true => exact ⟨.bytes bytes, rfl, hraw, rfl⟩
    | false =>
      have hdvd : shape.width ∣ bytes.length := by simpa [Layout.FitsLength, hraw] using h
      have hw := Shape.width_pos hn
      obtain ⟨items, hread, hfits, hstored⟩ :=
        Shape.exists_mapM_read (Bytes.length_of_mem_pieces hdvd)
      refine ⟨.structs items, ?_, ⟨hraw, hfits⟩, ?_⟩
      · simp only [hw.ne', Nat.mod_eq_zero_of_dvd hdvd, hread]
        rfl
      · rw [FlatValue.stored, hstored, Bytes.flatten_pieces hw]

end FlatNode

/-! ## Keys -/

namespace Schema

/-- Flat nodes anywhere in a schema have fields if all of its nodes have. -/
theorem Separated.isHollow_eq_false {s : Schema} (hs : s.Separated) {node : FlatNode}
    (hm : .flat node ∈ s.nodes) : node.layout.isHollow = false := by
  -- A node is its own first node, which is flat only if there are no others.
  induction s with rw [nodes] at hm
  | flat =>
    obtain ⟨⟩ := List.mem_singleton.1 hm
    exact hs
  | sequence label element sep args ih =>
    exact ih hs.2 (List.mem_of_ne_of_mem Schema.noConfusion hm)
  | set label keys =>
    obtain ⟨⟩ := List.mem_singleton.1 (List.mem_of_ne_of_mem Schema.noConfusion hm)
    exact hs.2
  | map label keys value sep ih =>
    obtain ⟨-, hkeys, -, hvalue⟩ := hs
    rcases List.mem_cons.1 (List.mem_of_ne_of_mem Schema.noConfusion hm) with hkey | hm
    · obtain rfl := Schema.flat.inj hkey
      exact hkeys
    · exact ih hvalue hm
  | pair label first second sep ih₁ ih₂ =>
    rcases List.mem_append.1 (List.mem_of_ne_of_mem Schema.noConfusion hm) with hm | hm
    · exact ih₁ hs.2.1 hm
    · exact ih₂ hs.2.2 hm

variable {node : FlatNode} {value : Value} {bytes : Bytes}

theorem keyBytes_eq_ok_iff :
    (flat node).keyBytes value = .ok bytes ↔
      ∃ flat, value = .flat flat ∧ node.layout.Holds flat ∧ flat.stored = bytes := by
  cases value <;> simp [keyBytes, FlatNode.write_eq_ok_iff]

theorem readFlat_stored (hn : node.layout.isHollow = false) {flat : FlatValue}
    (h : node.layout.Holds flat) : (Schema.flat node).readFlat flat.stored = .ok (.flat flat) := by
  rw [readFlat, FlatNode.read_stored hn h]
  rfl

end Schema

/-- A key of a node of a schema is read back as the value that was written, bit for bit, and takes
the width of the node for each element of the value. So no two values of the node have the same key.
Conversely any bytes of a length that fits are read, and what is read of them is written as the same
bytes. -/
theorem keyBytes_faithful {format : String} {s : Schema} (h : parse format = .ok s)
    {node : FlatNode} (hm : .flat node ∈ s.nodes) :
    (∀ value bytes, (Schema.flat node).keyBytes value = .ok bytes →
      (Schema.flat node).readFlat bytes = .ok value ∧
        ∃ flat, value = .flat flat ∧
          bytes.length = (Schema.flat node).elementWidth * flat.count) ∧
    (∀ value other bytes, (Schema.flat node).keyBytes value = .ok bytes →
      (Schema.flat node).keyBytes other = .ok bytes → value = other) ∧
    ∀ bytes : Bytes, node.layout.FitsLength bytes.length →
      ∃ value, (Schema.flat node).readFlat bytes = .ok value ∧
        (Schema.flat node).keyBytes value = .ok bytes := by
  have hn := (separated_of_parse h).isHollow_eq_false hm
  have hback : ∀ value bytes, (Schema.flat node).keyBytes value = .ok bytes →
      (Schema.flat node).readFlat bytes = .ok value := by
    intro value bytes hw
    obtain ⟨flat, rfl, hv, rfl⟩ := Schema.keyBytes_eq_ok_iff.1 hw
    exact Schema.readFlat_stored hn hv
  refine ⟨fun value bytes hw => ⟨hback value bytes hw, ?_⟩, ?_, ?_⟩
  · obtain ⟨flat, rfl, hv, rfl⟩ := Schema.keyBytes_eq_ok_iff.1 hw
    exact ⟨flat, rfl, FlatNode.length_stored hv⟩
  · intro value other bytes hv ho
    have hread := (hback value bytes hv).symm.trans (hback other bytes ho)
    exact Except.ok.inj hread
  · intro bytes hb
    obtain ⟨flat, hread, hv, hstored⟩ := FlatNode.exists_read hn hb
    refine ⟨.flat flat, ?_, Schema.keyBytes_eq_ok_iff.2 ⟨flat, rfl, hv, hstored⟩⟩
    rw [Schema.readFlat, hread]
    rfl

/-- Two structs in a row, of four fields altogether, are their key and its value. -/
theorem keyBytes_faithful_of_run_sample :
    let node : FlatNode := ⟨⟨1, "b,S;*"⟩, .structs ⟨[], [⟨.i8, [44]⟩, ⟨.u16, [59]⟩]⟩⟩
    let value : Value :=
      .flat (.structs [[.ofInt .i8 (-1), .ofInt .u16 258], [.ofInt .i8 2, .ofInt .u16 3]])
    let key : Bytes := [255, 2, 1, 2, 3, 0]
    ∃ s, parse "V(b,S;*)\n" = .ok s ∧ .flat node ∈ s.nodes ∧
      (Schema.flat node).keyBytes value = .ok key ∧
      (Schema.flat node).readFlat key = .ok value ∧ node.layout.FitsLength key.length ∧
      ∃ value, (Schema.flat node).readFlat key = .ok value ∧
        (Schema.flat node).keyBytes value = .ok key := by
  intro node value key
  have hp : parse "V(b,S;*)\n" = .ok (.sequence ⟨0, "V(b,S;*)\n"⟩ (.flat node) [10] []) := by
    decide +kernel
  have hm : .flat node ∈ (Schema.sequence ⟨0, "V(b,S;*)\n"⟩ (.flat node) [10] []).nodes := by
    simp [Schema.nodes]
  have hw : (Schema.flat node).keyBytes value = .ok key := rfl
  have hlength : node.layout.FitsLength key.length := .inr ⟨2, rfl⟩
  obtain ⟨hback, -, hforth⟩ := keyBytes_faithful hp hm
  exact ⟨_, hp, hm, hw, (hback value key hw).1, hlength, hforth key hlength⟩

end RecordStore
