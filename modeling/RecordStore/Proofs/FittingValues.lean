import RecordStore.Proofs.Lookups
import RecordStore.Proofs.ProgressingReads

/-!
# Decoded values fit their nodes

A value that was decoded has the form of its node, whatever the chunk was. So it has a text, a flat
value has a binary form of the width of its node, and no part of a build can find a value that does
not match its schema. The entries of a keyed value have distinct keys, each in the place where it
first came and with what came last for it.

## Main definitions

* `Layout.Measures` — how long the binary forms of a layout are.
* `Schema.Fits` — values that have a text, and whose flat parts have binary forms.
* `Schema.occurrences` — the entries of a chunk that are accepted.

## Main statements

* `decode_ne_mismatch` — decoding never blames the schema.
* `Schema.HasForm.fits` — values of the form of a schema fit it.
* `FlatNode.exists_build` — all values of a flat section have its width.
* `build_ne_encode` — no build fails to encode a value.
* `decoded_values_fit` — what is decoded fits, and what follows for builds and keyed values.
-/

namespace RecordStore

/-! ## Faults of texts -/

theorem Shape.decodeRun_ne_mismatch (s : Shape) (c : Cursor) (ordinal : ℕ) :
    s.decodeRun c ≠ .error (.shapeMismatch ordinal) := by
  fun_induction decodeRun s c with
  | case1 => simp
  | case2 c hs fault c' hread =>
    rintro ⟨⟩
    exact s.takes_decode.ne_mismatch hread ordinal rfl
  | case3 c hs item c' hread ih => rwa [ne_eq, map_eq_error]

theorem Scan.whole_ne_mismatch {α : Type} {read : Scan α} {n : ℕ} (h : ∀ c, read.Takes n c)
    (blanksAllowed : Bool) (chunk : Bytes) (ordinal : ℕ) :
    Scan.whole read blanksAllowed chunk ≠ .error (.shapeMismatch ordinal) := by
  unfold Scan.whole
  split
  · rename_i hread
    rintro ⟨⟩
    exact (h _).ne_mismatch hread ordinal rfl
  · split <;> simp

theorem FlatNode.decode_ne_mismatch (node : FlatNode) (chunk : Bytes) (ordinal : ℕ) :
    node.decode chunk ≠ .error (.shapeMismatch ordinal) := by
  unfold decode
  split
  · rw [ne_eq, map_eq_error]
    exact Scan.whole_ne_mismatch (fun _ => takes_decodeScalar _) _ _ _
  · rw [ne_eq, map_eq_error]
    exact Scan.whole_ne_mismatch (fun _ => Shape.takes_decode _) _ _ _
  · split
    · simp
    · rw [ne_eq, map_eq_error]
      exact Shape.decodeRun_ne_mismatch _ _ _

/-- Decoding may fail, but it never finds a value that does not match its schema. -/
theorem decode_ne_mismatch (s : Schema) (chunk : Bytes) (ordinal : ℕ) :
    decode s chunk ≠ .error (.shapeMismatch ordinal) := by
  induction s generalizing chunk with
  | flat node =>
    rw [decode, ne_eq, map_eq_error]
    exact node.decode_ne_mismatch chunk ordinal
  | sequence => simp [decode]
  | set => simp [decode_set]
  | map => simp [decode_map]
  | pair label first second sep ih₁ ih₂ =>
    intro h
    simp only [decode, bind_eq_error, pure_eq_ok, reduceCtorEq, and_false, exists_false,
      or_false] at h
    rcases h with hsides | ⟨⟨left, right⟩, -, hleft | ⟨value, -, hright⟩⟩
    · unfold splitPair at hsides
      split at hsides <;> cases hsides
    · exact ih₁ left hleft
    · exact ih₂ right hright

/-! ## Forms and texts -/

/-- Whether bytes are as long as a value: as wide as the layout, or a multiple of that for runs. -/
def Layout.Measures : Layout → ℕ → Prop
  | structs shape, length => shape.width ∣ length
  | layout, length => length = layout.width

/-- Whether a value has a text, has a binary form of the right length if its node is flat, and has
keys with binary forms if its node is keyed. -/
structure Schema.Fits (s : Schema) (value : Value) : Prop where
  text : ∃ text, encode s value = .ok text
  stored : ∀ node, s = .flat node →
    ∃ bytes, s.keyBytes value = .ok bytes ∧ node.layout.Measures bytes.length
  keyed : ∀ keys, s.keys? = some keys →
    ∃ entries, value = .keyed entries ∧ ∀ entry ∈ entries,
      ∃ bytes, (Schema.flat keys.node).keyBytes entry.1 = .ok bytes

theorem FlatNode.measures_stored {node : FlatNode} {value : FlatValue}
    (h : node.layout.Holds value) : node.layout.Measures value.stored.length := by
  have hlength := length_stored h
  cases hl : node.layout with
  | structs shape =>
    rw [hl] at hlength
    exact ⟨value.count, hlength⟩
  | _ =>
    rw [count_eq_one (by simp [hl]) h, Nat.mul_one, hl] at hlength
    exact hlength

theorem Schema.HasForm.fits {s : Schema} {value : Value} (h : s.HasForm value) :
    s.Fits value where
  text := h.exists_encode
  stored := by
    rintro node rfl
    cases h with
    | flat hform => exact ⟨_, FlatNode.write_eq hform, FlatNode.measures_stored hform⟩
  keyed keys hk := by
    have hkey {entry : Value × Option Value} {node : FlatNode}
        (hentry : ∃ key, entry.1 = .flat key ∧ node.layout.Holds key) :
        ∃ bytes, (Schema.flat node).keyBytes entry.1 = .ok bytes := by
      obtain ⟨key, he, hform⟩ := hentry
      exact ⟨_, by rw [he]; exact FlatNode.write_eq hform⟩
    cases h with
    | flat | sequence | pair => cases hk
    | set hkeys _ =>
      obtain rfl := Option.some.inj hk
      exact ⟨_, rfl, fun entry hm => hkey (hkeys entry hm)⟩
    | map hkeys _ _ =>
      obtain rfl := Option.some.inj hk
      exact ⟨_, rfl, fun entry hm => hkey (hkeys entry hm)⟩

theorem Schema.hasForm_of_decodeNext {s : Schema} {c c' : Cursor} {value : Value}
    (h : s.decodeNext c = .ok value c') : s.HasForm value := by
  cases s with
  | flat node =>
    rw [decodeNext, Scan.map_apply] at h
    split at h
    · rename_i hread
      cases h
      exact .flat (FlatNode.holds_of_decodeNext hread)
    · cases h
  | _ => cases h

/-! ## Builds -/

/-- A build of primitives or structs writes a flat section in which all values have its width. -/
theorem FlatNode.exists_build {node : FlatNode} (hl : ∀ shape, node.layout ≠ .structs shape)
    (outer : Option Bytes) (input : Bytes) (p : Progress) :
    ∃ values p', node.build outer input p = .ok values.length p' ∧
      p'.output = p.output.appendList
        (Section.write .flat node.label.ordinal [] (Section.flatBody node.layout.width values)) ∧
      ∀ value ∈ values, value.length = node.layout.width := by
  have hrows := node.holds_rows outer (Records.splitOptional outer input)
  have hgives := gives_build node outer input 0 p
  generalize node.rows outer (Records.splitOptional outer input) = result at hrows hgives
  obtain ⟨d, hbuild, -⟩ := hgives
  refine ⟨_, _, hbuild.trans (by rw [List.length_map]), ?_, Schema.length_of_mem_stored hrows hl⟩
  cases h : node.layout with
  | structs shape => exact absurd h (hl shape)
  | _ => simp [Schema.sections, FlatNode.section, h]

/-- No build fails to encode a value. -/
theorem build_ne_encode {schema : Schema} (hn : schema.NumberedFrom 0) (staging : Staging)
    (outer : Option Bytes) (input : Except SystemError Bytes) (cause : DecodeError) :
    (build staging schema outer input).2 ≠ .error (.encode cause) := by
  by_cases hs : ∃ parent cause, staging = .disk parent (some cause)
  · obtain ⟨parent, cause, rfl⟩ := hs
    simp [build]
  · have hs : ∀ parent cause, staging ≠ .disk parent (some cause) :=
      fun parent cause h => hs ⟨parent, cause, h⟩
    cases input with
    | error cause => simp [build_eq hs, Opener.build_error]
    | ok input =>
      rw [build_eq_written hs hn]
      cases schema.outcome outer (Records.splitOptional outer input) <;>
        simp [Schema.written, Halt.error]

/-! ## Entries -/

/-- The entries of a chunk that are accepted, each with the bytes of its key: those whose key and
value can be decoded. -/
def Schema.occurrences : Schema → Bytes → List (Bytes × Value × Option Value)
  | set _ keys, chunk =>
    (Records.split keys.sep chunk).filterMap fun record =>
      (keys.node.decode record).toOption.map fun key => (key.stored, .flat key, none)
  | map _ keys value sep, chunk =>
    (Records.mapEntries keys.sep sep chunk).filterMap fun
      | .cut keyText valueText => do
        let key ← (keys.node.decode keyText).toOption
        let item ← (decode value valueText).toOption
        return (key.stored, .flat key, some item)
      | .broken _ => none
  | _, _ => []

/-- A keyed value is gathered from the entries that are accepted. -/
theorem Schema.decode_of_keys? {s : Schema} {keys : KeySpec} (hk : s.keys? = some keys)
    (chunk : Bytes) : decode s chunk = .ok (gatherEntries (s.occurrences chunk)) := by
  cases s with
  | flat | sequence | pair => cases hk
  | set label keys' =>
    rw [decode_set, occurrences]
    congr 3
    funext record
    rw [KeySpec.member?, KeySpec.key?_eq, Option.map_map]
    rfl
  | map label keys' value sep =>
    rw [decode_map, occurrences]
    congr 3
    funext record
    cases record with
    | broken => rfl
    | cut keyText valueText =>
      simp only [KeySpec.association?, KeySpec.key?_eq]
      cases (keys'.node.decode keyText).toOption <;> rfl

/-- The key of an accepted entry has its bytes. -/
theorem Schema.keyBytes_of_mem_occurrences {s : Schema} {keys : KeySpec}
    (hk : s.keys? = some keys) {chunk : Bytes} {entry : Bytes × Value × Option Value}
    (hm : entry ∈ s.occurrences chunk) :
    (Schema.flat keys.node).keyBytes entry.2.1 = .ok entry.1 := by
  cases s with
  | flat | sequence | pair => cases hk
  | set label keys' =>
    obtain rfl := Option.some.inj hk
    obtain ⟨record, -, h⟩ := List.mem_filterMap.1 hm
    obtain ⟨key, hkey, rfl⟩ := Option.map_eq_some_iff.1 h
    exact FlatNode.write_eq (FlatNode.holds_of_decode (toOption_eq_some.1 hkey))
  | map label keys' value sep =>
    obtain rfl := Option.some.inj hk
    obtain ⟨record, -, h⟩ := List.mem_filterMap.1 hm
    cases record with
    | broken => cases h
    | cut keyText valueText =>
      obtain ⟨key, hkey, h⟩ := Option.bind_eq_some_iff.1 h
      obtain ⟨item, -, ⟨⟩⟩ := Option.bind_eq_some_iff.1 h
      exact FlatNode.write_eq (FlatNode.holds_of_decode (toOption_eq_some.1 hkey))

/-- What is decoded fits its node, so in a build no value fails to match its schema or to be
encoded, and all values of a flat section have its width. The entries of a keyed value have distinct
keys, each in the place where it is first accepted and with what is accepted last for it. -/
theorem decoded_values_fit {format : String} {schema : Schema} (h : parse format = .ok schema) :
    (∀ s ∈ schema.nodes,
      (∀ chunk value, decode s chunk = .ok value → s.Fits value) ∧
      (∀ c value c', s.decodeNext c = .ok value c' → s.Fits value) ∧
      (∀ chunk ordinal, decode s chunk ≠ .error (.shapeMismatch ordinal)) ∧
      ∀ keys, s.keys? = some keys → ∀ chunk, ∃ gathered,
        decode s chunk = .ok (.keyed (gathered.map (·.2))) ∧
        GatheredFrom (s.occurrences chunk) gathered ∧ (gathered.map (·.1)).Nodup ∧
        ∀ entry ∈ gathered, (Schema.flat keys.node).keyBytes entry.2.1 = .ok entry.1) ∧
    (∀ node : FlatNode, .flat node ∈ schema.nodes → (∀ shape, node.layout ≠ .structs shape) →
      (∀ c fault c', node.decodeNext c = .error fault c' →
        ∀ ordinal, fault ≠ .shapeMismatch ordinal) ∧
      ∀ outer input p, ∃ values p', node.build outer input p = .ok values.length p' ∧
        p'.output = p.output.appendList
          (Section.write .flat node.label.ordinal [] (Section.flatBody node.layout.width values)) ∧
        ∀ value ∈ values, value.length = node.layout.width) ∧
    ∀ staging outer input cause,
      (build staging schema outer input).2 ≠ .error (.encode cause) := by
  refine ⟨fun s _ => ⟨fun chunk value hd => (Schema.hasForm_of_decode hd).fits,
    fun c value c' hd => (Schema.hasForm_of_decodeNext hd).fits, decode_ne_mismatch s, ?_⟩,
    fun node _ hl => ⟨fun c fault c' hd => (FlatNode.takes_decodeNext hl).ne_mismatch hd,
      FlatNode.exists_build hl⟩, build_ne_encode (numberedFrom_of_parse h)⟩
  intro keys hk chunk
  obtain ⟨gathered, hgathered, hfrom⟩ := exists_gatheredFrom (s.occurrences chunk)
  refine ⟨gathered, by rw [Schema.decode_of_keys? hk, hgathered], hfrom, hfrom.nodup, ?_⟩
  intro entry hm
  exact Schema.keyBytes_of_mem_occurrences hk (mem_of_latest? (hfrom.latest entry hm))

/-- A key that comes again keeps its place and has the number that comes last, and a malformed
number does not count. A pair of numbers fits its node. -/
theorem decoded_entries_and_numbers_fit :
    parse "H(c),(l);" = .ok Archive.lookupSample ∧ parse "l,S" = .ok (.flat stampSample) ∧
      (∃ gathered : List (Bytes × Value × Option Value),
        decode Archive.lookupSample (Bytes.ofText "a,1;b,2;a,3;b,x;") =
          .ok (.keyed (gathered.map (·.2))) ∧ gathered.map (·.1) = [[0x61], [0x62]] ∧
        ∀ entry ∈ gathered, latest? (Archive.lookupSample.occurrences
          (Bytes.ofText "a,1;b,2;a,3;b,x;")) entry.1 = some entry.2) ∧
      decode (.flat stampSample) (Bytes.ofText "1,2") =
        .ok (.flat (.struct [⟨.i32, 1⟩, ⟨.u16, 2⟩])) ∧
      (Schema.flat stampSample).Fits (.flat (.struct [⟨.i32, 1⟩, ⟨.u16, 2⟩])) := by
  have hstamp : parse "l,S" = .ok (.flat stampSample) := by decide +kernel
  have hnumbers : decode (.flat stampSample) (Bytes.ofText "1,2") =
      .ok (.flat (.struct [⟨.i32, 1⟩, ⟨.u16, 2⟩])) := decode_flat rfl
  have hkeys : ((Archive.lookupSample.occurrences (Bytes.ofText "a,1;b,2;a,3;b,x;")).map
      (·.1)).eraseDups = [[0x61], [0x62]] := by decide +kernel
  obtain ⟨hnodes, -, -⟩ := decoded_values_fit Archive.parse_lookupSample
  obtain ⟨-, -, -, hkeyed⟩ := hnodes Archive.lookupSample List.mem_cons_self
  obtain ⟨gathered, hgathered, hfrom, -, -⟩ :=
    hkeyed _ rfl (Bytes.ofText "a,1;b,2;a,3;b,x;")
  obtain ⟨hnodes', -, -⟩ := decoded_values_fit hstamp
  obtain ⟨hfits, -, -, -⟩ := hnodes' (.flat stampSample) List.mem_cons_self
  exact ⟨Archive.parse_lookupSample, hstamp,
    ⟨gathered, hgathered, hfrom.keys.trans hkeys, hfrom.latest⟩, hnumbers, hfits _ _ hnumbers⟩

end RecordStore
