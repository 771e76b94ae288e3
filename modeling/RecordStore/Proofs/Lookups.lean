import RecordStore.Proofs.OpenedFiles

/-!
# Lookups

Looking a key up in a built archive agrees with reading the instance and going through its entries.

## Main definitions

* `Schema.keys?` — the keys of a keyed schema.
* `Schema.entryText` — the text that a lookup gives for what stands behind a key.
* `KeySpec.OnlyEntry` — a value has just one entry with the bytes of a key.

## Main statements

* `Schema.find_container` — a key is found at the place of its entry.
* `Archive.lookupIn_agrees_with_read` — a lookup gives the text of the only entry with the key.
-/

namespace RecordStore

namespace Schema

def keys? : Schema → Option KeySpec
  | set _ keys | map _ keys _ _ => some keys
  | _ => none

theorem exists_entries {s : Schema} {keys : KeySpec} (hk : s.keys? = some keys) {row : Value}
    (h : s.Holds row) : ∃ entries, row = .keyed entries := by
  cases s with
  | flat | sequence | pair => cases hk
  | set =>
    obtain ⟨entries, rfl, -⟩ := Holds.set_iff.1 h
    exact ⟨entries, rfl⟩
  | map =>
    obtain ⟨entries, rfl, -⟩ := Holds.map_iff.1 h
    exact ⟨entries, rfl⟩

/-- The text that a lookup gives for what stands behind a key. -/
def entryText : Schema → Option Value → Except DecodeError Bytes
  | set .., none => .ok Archive.presentText
  | map _ _ value _, some item => encode value item
  | s, _ => .error s.mismatch

end Schema

namespace KeySpec

variable {keys : KeySpec}

def HasBytes (keys : KeySpec) (bytes : Bytes) (entry : Value × Option Value) : Prop :=
  (Schema.flat keys.node).keyBytes entry.1 = .ok bytes

/-- Exactly one of the entries has a key with these bytes. -/
def OnlyEntry (keys : KeySpec) (bytes : Bytes) (entries : List (Value × Option Value))
    (entry : Value × Option Value) : Prop :=
  ∃ front back, entries = front ++ entry :: back ∧ keys.HasBytes bytes entry ∧
    ∀ other ∈ front ++ back, ¬keys.HasBytes bytes other

theorem hasBytes_iff {entries : List (Value × Option Value)} (h : keys.Holds entries)
    {entry : Value × Option Value} (hm : entry ∈ entries) {bytes : Bytes} :
    keys.HasBytes bytes entry ↔ entry.1.stored = bytes := by
  obtain ⟨key, hkey, hform⟩ := h.1 entry hm
  simp [HasBytes, hkey, Schema.keyBytes, FlatNode.write_eq hform, Value.stored]

theorem Holds.nodup {entries : List (Value × Option Value)} (h : keys.Holds entries) :
    (entries.map (·.1.stored)).Nodup := by
  obtain ⟨sorted, hs, harranged⟩ := h.2
  rw [harranged, (StorageOrder.arrange_perm keys.ordered id sorted).nodup_iff]
  refine hs.imp fun {a b} hab heq => ?_
  rw [heq, StoredKeys.compare_self_eq] at hab
  cases hab

/-- An entry whose key is stored as these bytes is the only one, at the place of the bytes. -/
theorem Holds.onlyEntry {entries : List (Value × Option Value)} (h : keys.Holds entries) {j : Nat}
    (hj : j < entries.length) :
    keys.OnlyEntry entries[j].1.stored entries entries[j] ∧
      (entries.map (·.1.stored)).idxOf entries[j].1.stored = j := by
  have hnodup := h.nodup
  constructor
  · have hsplit : entries = entries.take j ++ entries[j] :: entries.drop (j + 1) := by
      rw [List.getElem_cons_drop, List.take_append_drop]
    refine ⟨entries.take j, entries.drop (j + 1), hsplit,
      (hasBytes_iff h (List.getElem_mem hj)).2 rfl, fun other ho hbytes => ?_⟩
    have hmem : other ∈ entries := by
      rcases List.mem_append.1 ho with ho | ho
      · exact List.mem_of_mem_take ho
      · exact List.mem_of_mem_drop ho
    rw [hsplit, List.map_append, List.map_cons, List.nodup_middle, List.nodup_cons,
      ← List.map_append] at hnodup
    exact hnodup.1 ((hasBytes_iff h hmem).1 hbytes ▸ List.mem_map_of_mem ho)
  · have := hnodup.idxOf_getElem j (by simpa using hj)
    rwa [List.getElem_map] at this

theorem arranged_storedKeys {rows : List Value} (set : Bool)
    (hr : ∀ row ∈ rows, ∃ entries, row = .keyed entries ∧ keys.Holds entries) :
    (keys.storedKeys set rows).Arranged := by
  intro stored hm
  obtain ⟨row, hrow, rfl⟩ := List.mem_map.1 hm
  obtain ⟨entries, rfl, hk⟩ := hr row hrow
  exact hk.2

end KeySpec

namespace Schema

variable {rows : List Value}

/-- A key is found at the place of its entry, or not at all. -/
theorem find_container {keys : KeySpec} (set : Bool)
    (hr : ∀ row ∈ rows, ∃ entries, row = .keyed entries ∧ keys.Holds entries)
    (hl : (keys.storedKeys set rows).body.length < wordLimit) {i : Nat} (hi : i < rows.length)
    {entries : List (Value × Option Value)} (he : rows[i] = .keyed entries) (bytes : Bytes) :
    (∀ entry ∈ entries, ¬keys.HasBytes bytes entry) ∧
        Archive.find (keys.storedKeys set rows).view i bytes = .ok none ∨
      ∃ j, ∃ hj : j < entries.length, keys.OnlyEntry bytes entries entries[j] ∧
        Archive.find (keys.storedKeys set rows).view i bytes =
          .ok (some ((keys.storedKeys set rows).view.slotted
            ((keys.storedKeys set rows).startOf i + j))) := by
  have hholds : keys.Holds entries := by
    obtain ⟨entries', hrow, hk⟩ := hr _ (List.getElem_mem hi)
    rw [he, Value.keyed.injEq] at hrow
    exact hrow ▸ hk
  have harranged := KeySpec.arranged_storedKeys set hr
  set k := keys.storedKeys set rows with hkdef
  have hi' : i < k.instances.length := by simpa [hkdef, KeySpec.storedKeys] using hi
  have hkeys : k.instances[i] = entries.map (·.1.stored) := by
    simp [hkdef, KeySpec.storedKeys, he, Value.entries]
  have hfind : Archive.find k.view i bytes =
      .ok (if bytes ∈ k.instances[i] then
        some (k.view.slotted (k.startOf i + k.instances[i].idxOf bytes)) else none) := by
    rw [Archive.find, k.instance?_view hi', ok_bind]
    simp only [StoredKeys.get_instanceAt harranged bytes hi' hl]
    rfl
  rw [hfind, hkeys]
  by_cases hmem : bytes ∈ entries.map (·.1.stored)
  · obtain ⟨j, hj, hkey⟩ := List.mem_iff_getElem.1 hmem
    rw [List.length_map] at hj
    rw [List.getElem_map] at hkey
    subst hkey
    obtain ⟨honly, hplace⟩ := hholds.onlyEntry hj
    exact Or.inr ⟨j, hj, honly, by rw [if_pos hmem, hplace]⟩
  · refine Or.inl ⟨fun entry hm hbytes => hmem ?_, by rw [if_neg hmem]⟩
    exact (KeySpec.hasBytes_iff hholds hm).1 hbytes ▸ List.mem_map_of_mem hm

end Schema

namespace Archive

/-- A key that its node decodes has bytes, and these are looked for. -/
theorem exists_decodeKey {keys : KeySpec} {keyText : Bytes} {key : Value}
    (h : decode (.flat keys.node) keyText = .ok key) :
    ∃ bytes flat, (Schema.flat keys.node).keyBytes key = .ok bytes ∧
      keys.decodeKey keyText = .ok (bytes, flat) := by
  rw [decode, map_eq_ok] at h
  obtain ⟨flat, hd, rfl⟩ := h
  have hwrite := FlatNode.write_eq (FlatNode.holds_of_decode hd)
  refine ⟨flat.stored, flat, hwrite, ?_⟩
  rw [KeySpec.decodeKey, hd, ok_bind, hwrite, ok_bind, pure_eq_ok]

/-- What a lookup gives, by the entries of the instance that is read: nothing if none has the key,
and the text of the only one that has it otherwise. -/
def Agrees (schema : Schema) (keys : KeySpec) (bytes : Bytes)
    (entries : List (Value × Option Value)) (found : Except ReadError (Option Bytes)) : Prop :=
  (∀ entry ∈ entries, ¬keys.HasBytes bytes entry) ∧ found = .ok none ∨
    ∃ entry text, keys.OnlyEntry bytes entries entry ∧ schema.entryText entry.2 = .ok text ∧
      found = .ok (some text)

theorem checkInstance_container {s : Schema} {rows : List Value} {i : Nat}
    (hi : i < rows.length) : checkInstance ⟨s, s.container rows⟩ i = .ok () := by
  rw [checkInstance, instances, Schema.instances_container, if_pos hi]

/-- A member that is found has a value of presence, so its text is that of presence. -/
theorem lookupIn_set {label : Label} {keys : KeySpec} {rows : List Value}
    (hr : ∀ row ∈ rows, (Schema.set label keys).Holds row)
    (hl : (keys.storedKeys true rows).body.length < wordLimit) {i : Nat} (hi : i < rows.length)
    {entries : List (Value × Option Value)} (he : rows[i] = .keyed entries) {keyText bytes : Bytes}
    {key : FlatValue} (hkey : keys.decodeKey keyText = .ok (bytes, key)) :
    Agrees (.set label keys) keys bytes entries
      (lookupIn ⟨.set label keys, (Schema.set label keys).container rows⟩ i keyText) := by
  have hcheck := @checkInstance_container (.set label keys) _ _ hi
  have hrows : ∀ row ∈ rows, ∃ entries, row = .keyed entries ∧ keys.Holds entries := by
    intro row hm
    obtain ⟨entries, hrow, hkeys, -⟩ := Schema.Holds.set_iff.1 (hr row hm)
    exact ⟨entries, hrow, hkeys⟩
  simp only [lookupIn, Schema.container] at hcheck ⊢
  rw [hcheck, ok_bind, hkey]
  show Agrees _ _ _ _ (find (keys.storedKeys true rows).view i bytes >>= _)
  rcases Schema.find_container true hrows hl hi he bytes with
    ⟨hnone, hfind⟩ | ⟨j, hj, honly, hfind⟩
  · exact Or.inl ⟨hnone, by rw [hfind]; rfl⟩
  · have hvalue : entries[j].2 = none := by
      obtain ⟨entries', hrow, -, hnone⟩ := Schema.Holds.set_iff.1 (hr _ (List.getElem_mem hi))
      rw [he, Value.keyed.injEq] at hrow
      exact hnone _ (hrow ▸ List.getElem_mem hj)
    refine Or.inr ⟨entries[j], presentText, honly, by rw [hvalue]; rfl, ?_⟩
    rw [hfind]
    rfl

/-- The value that is read for an entry that is found is the value of the entry. -/
theorem lookupIn_map {label : Label} {keys : KeySpec} {value : Schema} {sep : Bytes}
    (hs : value.Storable) {rows : List Value}
    (hr : ∀ row ∈ rows, (Schema.map label keys value sep).Holds row)
    (hl : ((Schema.map label keys value sep).sections rows).length < wordLimit) {i : Nat}
    (hi : i < rows.length) {entries : List (Value × Option Value)}
    (he : rows[i] = .keyed entries) {keyText bytes : Bytes} {key : FlatValue}
    (hkey : keys.decodeKey keyText = .ok (bytes, key)) :
    Agrees (.map label keys value sep) keys bytes entries
      (lookupIn ⟨.map label keys value sep, (Schema.map label keys value sep).container rows⟩ i
        keyText) := by
  have hcheck := @checkInstance_container (.map label keys value sep) _ _ hi
  have hrows : ∀ row ∈ rows, ∃ entries, row = .keyed entries ∧ keys.Holds entries := by
    intro row hm
    obtain ⟨entries, hrow, hkeys, -⟩ := Schema.Holds.map_iff.1 (hr row hm)
    exact ⟨entries, hrow, hkeys⟩
  simp only [Schema.sections, List.length_append] at hl
  have hbody := Schema.length_body_le (Container.keyedTag keys) label.ordinal keys.args
    (keys.storedKeys false rows).body
  set root := value.container (rows.flatMap Schema.payloads) with hroot
  simp only [lookupIn, Schema.container] at hcheck ⊢
  rw [hcheck, ok_bind, hkey]
  show Agrees _ _ _ _ (find (keys.storedKeys false rows).view i bytes >>= _)
  rcases Schema.find_container false hrows (by omega) hi he bytes with
    ⟨hnone, hfind⟩ | ⟨j, hj, honly, hfind⟩
  · exact Or.inl ⟨hnone, by rw [hfind]; rfl⟩
  · obtain ⟨item, hitem, hform⟩ : ∃ item, entries[j].2 = some item ∧ value.Holds item := by
      obtain ⟨entries', hrow, -, hsome⟩ := Schema.Holds.map_iff.1 (hr _ (List.getElem_mem hi))
      rw [he, Value.keyed.injEq] at hrow
      exact hsome _ (hrow ▸ List.getElem_mem hj)
    obtain ⟨hlt, hplace⟩ :=
      List.getElem?_eq_some_iff.1 (Schema.getElem?_payloads hr hi he hj hitem)
    have hread := Schema.read_container hs (Schema.holds_payloads hr) (by omega) hlt
    rw [hplace, ← hroot] at hread
    obtain ⟨text, htext⟩ := Schema.exists_encode hform
    refine Or.inr ⟨entries[j], text, honly, by rw [hitem]; exact htext, ?_⟩
    rw [hfind, ok_bind]
    show (do some <$> (encode value (← root.read _)).mapError .decode :
      Except ReadError (Option Bytes)) = _
    rw [hread, ok_bind, htext]
    rfl

theorem lookupIn_container {s : Schema} (hs : s.Storable) {rows : List Value}
    (hr : ∀ row ∈ rows, s.Holds row) (hl : (s.sections rows).length < wordLimit) {keys : KeySpec}
    (hk : s.keys? = some keys) {i : Nat} (hi : i < rows.length)
    {entries : List (Value × Option Value)} (he : rows[i] = .keyed entries) {keyText bytes : Bytes}
    {key : FlatValue} (hkey : keys.decodeKey keyText = .ok (bytes, key)) :
    Agrees s keys bytes entries (lookupIn ⟨s, s.container rows⟩ i keyText) := by
  cases s with
  | flat | sequence | pair => cases hk
  | set label keys' =>
    obtain rfl : keys' = keys := Option.some.inj hk
    exact lookupIn_set hr (Nat.lt_of_le_of_lt (Schema.length_body_le ..) hl) hi he hkey
  | map label keys' value sep =>
    obtain rfl : keys' = keys := Option.some.inj hk
    exact lookupIn_map hs.2.2 hr hl hi he hkey

/-- A lookup in a built archive agrees with reading: it gives nothing exactly if no entry of the
instance has the key, and otherwise the text of the only entry that has it. -/
theorem lookupIn_agrees_with_read {format : String} {schema : Schema}
    (hp : parse format = .ok schema) (hf : (Bytes.ofText format).length < 2 ^ 32)
    (ha : schema.ArgsFit) {keys : KeySpec} (hk : schema.keys? = some keys) {staging : Staging}
    {outer : Option Bytes} {input : Except SystemError Bytes} {output : Bytes}
    {summary : BuildSummary} (hb : build staging schema outer input = (output, .ok summary))
    (hl : output.length < wordLimit) {archive : Archive}
    (ho : Archive.open schema output = .ok archive) {i : Nat} (hi : i < archive.instances)
    {keyText : Bytes} {key : Value} (hd : decode (.flat keys.node) keyText = .ok key) :
    ∃ entries bytes, archive.read i = .ok (.keyed entries) ∧
      (Schema.flat keys.node).keyBytes key = .ok bytes ∧
      (archive.lookupIn i keyText = .ok none ↔ ∀ entry ∈ entries, ¬keys.HasBytes bytes entry) ∧
      ((∃ entry ∈ entries, keys.HasBytes bytes entry) →
        ∃ entry text, keys.OnlyEntry bytes entries entry ∧
          schema.entryText entry.2 = .ok text ∧ archive.lookupIn i keyText = .ok (some text)) := by
  have hsource : (Bytes.ofText schema.source).length < 2 ^ 32 := by rwa [parse_source hp]
  obtain ⟨text, rows, skipped, -, hrows, rfl, -⟩ := rows?_of_build (numberedFrom_of_parse hp) hb
  have hr := Schema.holds_of_rows? hrows
  obtain ⟨hs, rfl⟩ :=
    eq_of_open_file (Schema.addressed_of_parse hp hf ha) hsource hr hl ho
  replace hi : i < rows.length := by
    rwa [instances, Schema.instances_container] at hi
  obtain ⟨entries, he⟩ : ∃ entries, rows[i] = .keyed entries := by
    have hrow := hr _ (List.getElem_mem hi)
    cases schema with
    | flat | sequence | pair => cases hk
    | set =>
      obtain ⟨entries, hrow, -⟩ := Schema.Holds.set_iff.1 hrow
      exact ⟨entries, hrow⟩
    | map =>
      obtain ⟨entries, hrow, -⟩ := Schema.Holds.map_iff.1 hrow
      exact ⟨entries, hrow⟩
  have hsections : (schema.sections rows).length < wordLimit := by
    rw [Schema.file, List.length_append] at hl
    omega
  obtain ⟨bytes, flat, hbytes, hkey⟩ := exists_decodeKey hd
  have hread := read_file hs hr hl hi
  rw [he] at hread
  refine ⟨entries, bytes, hread, hbytes, ?_⟩
  rcases lookupIn_container hs hr hsections hk hi he hkey with
    ⟨hnone, hfound⟩ | ⟨entry, text, honly, htext, hfound⟩
  · refine ⟨⟨fun _ => hnone, fun _ => hfound⟩, ?_⟩
    rintro ⟨entry, hm, hhas⟩
    exact absurd hhas (hnone entry hm)
  · have hmem : entry ∈ entries := by
      obtain ⟨front, back, rfl, -, -⟩ := honly
      simp
    have hhas : keys.HasBytes bytes entry := honly.choose_spec.choose_spec.2.1
    refine ⟨⟨fun h => ?_, fun h => absurd hhas (h entry hmem)⟩,
      fun _ => ⟨entry, text, honly, htext, hfound⟩⟩
    rw [hfound] at h
    cases h

def lookupSample : Schema :=
  .map ⟨0, "H(c),(l);"⟩ ⟨⟨⟨1, "c"⟩, .primitive .char⟩, [0x2c], false, []⟩
    (.flat ⟨⟨2, "l"⟩, .primitive .i32⟩) [0x3b]

theorem parse_lookupSample : parse "H(c),(l);" = .ok lookupSample := by decide +kernel

theorem argsFit_lookupSample : lookupSample.ArgsFit := by
  simp only [Schema.ArgsFit, lookupSample, Schema.nodes]
  decide

theorem build_lookupSample :
    (build .memory lookupSample none (.ok (Bytes.ofText "a,1;b,x;a,2;"))).2 = .ok ⟨1, 1, 149⟩ ∧
      (Archive.open lookupSample (build .memory lookupSample none
        (.ok (Bytes.ofText "a,1;b,x;a,2;"))).1).map instances = .ok 1 :=
  ⟨by decide +kernel, by decide +kernel⟩

theorem lookupIn_sample_agrees :
    ∃ output archive, build .memory lookupSample none (.ok (Bytes.ofText "a,1;b,x;a,2;")) =
        (output, .ok ⟨1, 1, 149⟩) ∧ Archive.open lookupSample output = .ok archive ∧
      ∃ entries, archive.read 0 = .ok (.keyed entries) ∧
        (archive.lookupIn 0 (Bytes.ofText "a") = .ok none ↔
          ∀ entry ∈ entries, ¬KeySpec.HasBytes ⟨⟨⟨1, "c"⟩, .primitive .char⟩, [0x2c], false, []⟩
            (Bytes.ofText "a") entry) := by
  have hb := eq_of_snd_eq build_lookupSample.1
  have hformat : (Bytes.ofText "H(c),(l);").length = 9 := by decide
  have hlength := (bytesWritten_of_build (numberedFrom_of_parse parse_lookupSample) hb).symm
  obtain ⟨archive, ho, hi⟩ := map_eq_ok.1 build_lookupSample.2
  have hd : decode (.flat ⟨⟨1, "c"⟩, .primitive .char⟩) (Bytes.ofText "a") =
      .ok (.flat (.scalar ⟨.char, 0x61⟩)) := decode_flat rfl
  obtain ⟨entries, bytes, hread, hbytes, hnone, -⟩ :=
    lookupIn_agrees_with_read parse_lookupSample (by omega) argsFit_lookupSample rfl hb
      (by rw [hlength]; decide) ho (i := 0) (by omega) hd
  have hletter : (Schema.flat ⟨⟨1, "c"⟩, .primitive .char⟩).keyBytes
      (.flat (.scalar ⟨.char, 0x61⟩)) = .ok (Bytes.ofText "a") := rfl
  obtain rfl := Except.ok.inj (hletter.symm.trans hbytes)
  exact ⟨_, archive, hb, ho, entries, hread, hnone⟩

end Archive

end RecordStore
