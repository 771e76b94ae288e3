import RecordStore.Proofs.OpenedFiles
import RecordStore.Proofs.LegibleRows

/-!
# Skipped and omitted parts

A level of a build skips each part that cannot be decoded, and counts it. But decoding a part also
leaves out what cannot be decoded inside of it, and this is not counted: the level below only gets
the text of what has been decoded, of which every part can be decoded again. So the parts that are
counted are those of the root.

## Main definitions

* `Schema.omitted` — how many parts decoding leaves out over all levels.

## Main statements

* `Schema.omitted_le_malformed` — all of them are parts of the root if its children are flat.
* `Schema.malformed_le_skipped` — the parts of the root are counted.
* `skipped_of_build` — what the count of a build says.
-/

namespace RecordStore

namespace Schema

/-- How many parts decoding a chunk leaves out over all levels. What is inside a part that is left
out is not looked at. -/
def omitted : Schema → Bytes → Nat
  | flat _, _ => 0
  | sequence _ element sep _, chunk =>
    ((Records.split sep chunk).map fun piece =>
      if (decode element piece).isOk then element.omitted piece else 1).sum
  | set _ keys, chunk => missing ((Records.split keys.sep chunk).map keys.key?)
  | map _ keys value sep, chunk =>
    ((Records.mapEntries keys.sep sep chunk).map fun
      | .cut keyText valueText =>
        if (keys.association? value (.cut keyText valueText)).isSome then value.omitted valueText
        else 1
      | .broken _ => 1).sum
  | pair _ first second sep, chunk =>
    match splitPair sep chunk with
    | .ok (left, right) =>
      first.omitted left + if (decode first left).isOk then second.omitted right else 0
    | .error _ => 0

theorem omitted_of_isFlat {s : Schema} (h : s.isFlat = true) (chunk : Bytes) :
    s.omitted chunk = 0 := by
  cases s <;> simp_all [isFlat, omitted]

/-- If all children are flat, decoding leaves out parts of the node alone. -/
theorem omitted_le_malformed {s : Schema} (h : ∀ child ∈ s.children, child.isFlat = true)
    (chunk : Bytes) : s.omitted chunk ≤ s.malformed chunk := by
  cases s with
  | flat node => exact Nat.zero_le _
  | sequence label element sep args =>
    rw [omitted, malformed, missing_eq_sum]
    refine Nat.le_of_eq (congrArg List.sum (List.map_congr_left fun piece _ => ?_))
    rw [omitted_of_isFlat (h _ (by simp [children]))]
    cases decode element piece <;> rfl
  | set label keys => exact Nat.le_refl _
  | map label keys value sep =>
    rw [omitted, malformed, missing_eq_sum]
    refine Nat.le_of_eq (congrArg List.sum (List.map_congr_left fun record _ => ?_))
    cases record with
    | broken => rfl
    | cut keyText valueText => simp only [omitted_of_isFlat (h value (by simp [children]))]
  | pair label first second sep =>
    have hfirst := omitted_of_isFlat (h first (by simp [children]))
    have hsecond := omitted_of_isFlat (h second (by simp [children]))
    have hzero : (pair label first second sep).omitted chunk = 0 := by
      rw [omitted]
      split <;> simp [hfirst, hsecond]
    rw [hzero]
    exact Nat.zero_le _

/-! ## Parts of the root -/

theorem entryOf?_of_none {keys : KeySpec} {value : Schema} {sep : Bytes} {record : Records.Entry}
    (h : keys.association? value record = none) : entryOf? keys value sep record = none := by
  cases record with
  | broken => rfl
  | cut keyText valueText =>
    rw [entryOf?]
    cases hk : keys.key? keyText with
    | none => rfl
    | some key =>
      have hv : (decode value valueText).toOption = none := by
        cases hv : (decode value valueText).toOption with
        | none => rfl
        | some item => simp [KeySpec.association?, hk, hv] at h
      simp [restage?_of_none hv]

theorem restagePair?_of_none {label : Label} {first second : Schema} {sep chunk : Bytes}
    (h : (decode (pair label first second sep) chunk).toOption = none) (outer : Option Bytes) :
    restagePair? first second sep outer chunk = none := by
  rw [restagePair?]
  cases hsides : splitPair sep chunk with
  | error => rfl
  | ok sides =>
    cases hl : decode first sides.1 with
    | error e =>
      have hleft := @restage?_of_none first sep sides.1 (by rw [hl]; rfl)
      simp [Except.toOption, hleft]
    | ok left =>
      have hright : (decode second sides.2).toOption = none := by
        cases hr : decode second sides.2 with
        | error => rfl
        | ok right => simp [decode, hsides, hl, hr, Except.toOption] at h
      simp [Except.toOption, canonical?_eq_none hright]

/-- The parts of an input that cannot be decoded are counted. -/
theorem malformed_le_skipped {s : Schema} (hs : s.isStreamed = false) {chunk : Bytes}
    {rows : List Value} {skipped : Nat} (h : s.rows? none [chunk] = some (rows, skipped)) :
    s.malformed chunk ≤ skipped := by
  cases s with
  | flat node =>
    obtain ⟨shape, hshape⟩ : ∃ shape, node.layout = .structs shape := by
      by_contra hnone
      rw [not_exists] at hnone
      simp [isStreamed_flat hnone] at hs
    rw [rows?_of_flat, rows_structs hshape, Option.some.injEq, Prod.mk.injEq] at h
    rw [← h.2, malformed_flat]
  | sequence label element sep args =>
    simp only [rows?_of_sequence, Option.bind_eq_some_iff, Prod.exists,
      Option.ite_none_right_eq_some, Option.some.injEq, Prod.mk.injEq] at h
    obtain ⟨items, below, -, -, -, rfl⟩ := h
    refine Nat.le_trans ?_ (Nat.le_add_right _ below)
    rw [malformed, List.map_singleton, List.flatten_singleton]
    exact missing_mono fun piece _ => restage?_of_none
  | set label keys =>
    rw [rows?_of_set, Option.some.injEq, Prod.mk.injEq] at h
    simp [malformed, ← h.2]
  | map label keys value sep =>
    simp only [rows?_of_map, Option.bind_eq_some_iff, Prod.exists,
      Option.ite_none_right_eq_some, Option.some.injEq, Prod.mk.injEq] at h
    obtain ⟨items, below, -, -, -, rfl⟩ := h
    refine Nat.le_trans ?_ (Nat.le_add_right _ below)
    rw [malformed, List.map_singleton, List.flatten_singleton]
    exact missing_mono fun record _ => entryOf?_of_none
  | pair label first second sep =>
    simp only [rows?_of_pair, Option.bind_eq_some_iff, Prod.exists,
      Option.ite_none_right_eq_some, Option.some.injEq, Prod.mk.injEq] at h
    obtain ⟨lefts, below, -, -, rights, below', -, -, -, rfl⟩ := h
    refine Nat.le_trans ?_ (Nat.le_trans (Nat.le_add_right _ below) (Nat.le_add_right _ below'))
    rw [malformed]
    exact @missing_mono _ _ _ [chunk] _ _ fun part _ hd => restagePair?_of_none hd none

end Schema

/-! ## Builds -/

/-- A build counts each part of the root that cannot be decoded, so all that are left out if the
children of the root are flat. It counts no other if the schema is legible. -/
theorem skipped_of_build {format : String} {schema : Schema} (hp : parse format = .ok schema)
    (hs : schema.isStreamed = false) {staging : Staging} {input : Except SystemError Bytes}
    {output : Bytes} {summary : BuildSummary}
    (hb : build staging schema none input = (output, .ok summary)) :
    ∃ text, input = .ok text ∧ schema.malformed text ≤ summary.skipped ∧
      ((∀ child ∈ schema.children, child.isFlat = true) →
        schema.omitted text ≤ summary.skipped) ∧
      (schema.Legible → summary.skipped = schema.malformed text) := by
  obtain ⟨text, rows, skipped, rfl, hrows, -, rfl⟩ := rows?_of_build (numberedFrom_of_parse hp) hb
  rw [Records.splitOptional] at hrows
  have hle := Schema.malformed_le_skipped hs hrows
  refine ⟨text, rfl, hle, ?_, ?_⟩
  · intro hflat
    exact Nat.le_trans (Schema.omitted_le_malformed hflat text) hle
  · intro hlegible
    have hseparated := separated_of_parse hp
    have hm := Schema.marked_of_legible hseparated hlegible (collision?_of_parse hp)
    obtain ⟨rows', hrows', -⟩ :=
      Schema.accounts_singleton.1 (Schema.accounts_whole hseparated hm (.inl hs))
    exact congrArg Prod.snd (Option.some.inj (hrows.symm.trans hrows'))

def listMapSample : Schema :=
  .map ⟨0, "T(l)=(V(l),);"⟩ ⟨⟨⟨1, "l"⟩, .primitive .i32⟩, [0x3d], true, []⟩
    (.sequence ⟨2, "V(l),"⟩ (.flat ⟨⟨3, "l"⟩, .primitive .i32⟩) [0x2c] []) [0x3b]

theorem legible_listMapSample : listMapSample.Legible where
  marks sep hm := by
    have hsep : sep = [0x3d] ∨ sep = [0x3b] ∨ sep = [0x2c] := by
      simpa [listMapSample, Layout.separators, or_comm, or_assoc] using hm
    rcases hsep with rfl | rfl | rfl
    · exact .inr ⟨0x3d, by decide, rfl⟩
    · exact .inr ⟨0x3b, by decide, rfl⟩
    · exact .inr ⟨0x2c, by decide, rfl⟩
  ends_numbers node hm := by
    have hnode : node = ⟨⟨1, "l"⟩, .primitive .i32⟩ ∨ node = ⟨⟨3, "l"⟩, .primitive .i32⟩ := by
      simpa [listMapSample, Schema.nodes] using hm
    rcases hnode with rfl | rfl <;> simp [Layout.EndsNumbers]

/-- The entry of a key that is no number is skipped. A number below that cannot be decoded is left
out in silence. -/
theorem skipped_of_listMapSample :
    ∃ output summary, build .memory listMapSample none (.ok (Bytes.ofText "1=5,x,;y=7,;")) =
        (output, .ok summary) ∧ summary.skipped = 1 ∧
      listMapSample.omitted (Bytes.ofText "1=5,x,;y=7,;") = 2 := by
  have hparse : parse "T(l)=(V(l),);" = .ok listMapSample := by decide +kernel
  have hsuccess : ∃ summary, (build .memory listMapSample none
      (.ok (Bytes.ofText "1=5,x,;y=7,;"))).2 = .ok summary := ⟨⟨1, 1, 163⟩, by decide +kernel⟩
  obtain ⟨summary, hsummary⟩ := hsuccess
  have hb := eq_of_snd_eq hsummary
  obtain ⟨text, htext, -, -, hskipped⟩ := skipped_of_build hparse rfl hb
  obtain rfl := Except.ok.inj htext
  refine ⟨_, summary, hb, ?_, by decide +kernel⟩
  rw [hskipped legible_listMapSample]
  decide +kernel

/-- A part that is left out below the root is not counted. -/
theorem omitted_part_is_not_counted :
    parse "V(V(l),);" = .ok nestedSample ∧
      nestedSample.omitted (Bytes.ofText "5,x,6,;7,;") = 1 ∧
      (build .memory nestedSample none (.ok (Bytes.ofText "5,x,6,;7,;"))).2 =
        .ok ⟨1, 0, 154⟩ :=
  ⟨parse_nestedSample, by decide +kernel, build_nestedSample⟩

end RecordStore
