import RecordStore.Proofs.RowsOfText

/-!
# The form of values

What is decoded and what is stored has the form of its schema. A decoded value has its entries in
the order of the text, a row has them in storage order; either has a text.

## Main definitions

* `Schema.HasForm` — values of the form of a schema, with entries in any order.

## Main statements

* `Schema.Holds.hasForm` — rows have the form of their schema.
* `Schema.hasForm_of_decode` — what is decoded has the form of its schema.
* `Schema.HasForm.exists_encode` — values of the form have a text.
-/

namespace RecordStore

/-! ## Decoded entries -/

def KeySpec.member? (keys : KeySpec) (record : Bytes) : Option (Bytes × Value × Option Value) :=
  (keys.key? record).map fun key => (key.1, .flat key.2, none)

def KeySpec.association? (keys : KeySpec) (value : Schema) :
    Records.Entry → Option (Bytes × Value × Option Value)
  | .cut keyText valueText => do
    let key ← keys.key? keyText
    let item ← (decode value valueText).toOption
    return (key.1, .flat key.2, some item)
  | .broken _ => none

namespace KeySpec

theorem exists_of_member? {keys : KeySpec} {record : Bytes} {entry : Bytes × Value × Option Value}
    (h : keys.member? record = some entry) :
    ∃ key, keys.key? record = some (entry.1, key) ∧ entry.2 = (.flat key, none) := by
  obtain ⟨⟨bytes, key⟩, hkey, rfl⟩ := Option.map_eq_some_iff.1 h
  exact ⟨key, hkey, rfl⟩

/-- An entry is the key and the value of a record that is cut in two. -/
theorem exists_of_association? {keys : KeySpec} {value : Schema} {record : Records.Entry}
    {entry : Bytes × Value × Option Value} (h : keys.association? value record = some entry) :
    ∃ keyText valueText key item, record = .cut keyText valueText ∧
      keys.key? keyText = some (entry.1, key) ∧ decode value valueText = .ok item ∧
        entry.2 = (.flat key, some item) := by
  cases record with
  | broken => cases h
  | cut keyText valueText =>
    simp only [association?, Option.bind_eq_bind, Option.bind_eq_some_iff, Prod.exists,
      Option.pure_def, Option.some.injEq, toOption_eq_some] at h
    obtain ⟨bytes, key, hkey, item, hitem, rfl⟩ := h
    exact ⟨keyText, valueText, key, item, rfl, hkey, hitem, rfl⟩

theorem keyed_eq {keys : KeySpec} {entries : List (FlatValue × Option Value)}
    (h : ∀ entry ∈ entries, keys.node.layout.Holds entry.1) :
    keys.keyed entries =
      .ok (entries.map fun entry => (entry.1.stored, .flat entry.1, entry.2)) := by
  refine mapM_eq_ok fun entry hm => ?_
  rw [FlatNode.write_eq (h entry hm)]
  rfl

end KeySpec

theorem decode_flat {node : FlatNode} {chunk : Bytes} {value : FlatValue}
    (h : node.decode chunk = .ok value) : decode (.flat node) chunk = .ok (.flat value) := by
  rw [decode, h]
  rfl

theorem decode_set (label : Label) (keys : KeySpec) (chunk : Bytes) :
    decode (.set label keys) chunk =
      .ok (gatherEntries ((Records.split keys.sep chunk).filterMap keys.member?)) := by
  rw [decode, KeySpec.keyed_eq, ok_bind, List.map_filterMap, pure_eq_ok]
  · congr 3
    funext record
    rw [KeySpec.member?, KeySpec.key?_eq, Option.map_map, Option.map_map]
    rfl
  · intro entry hm
    obtain ⟨record, -, he⟩ := List.mem_filterMap.1 hm
    obtain ⟨key, hkey, rfl⟩ := Option.map_eq_some_iff.1 he
    exact FlatNode.holds_of_decode (toOption_eq_some.1 hkey)

theorem decode_map (label : Label) (keys : KeySpec) (value : Schema) (sep chunk : Bytes) :
    decode (.map label keys value sep) chunk =
      .ok (gatherEntries
        ((Records.mapEntries keys.sep sep chunk).filterMap (keys.association? value))) := by
  rw [decode, KeySpec.keyed_eq, ok_bind, List.map_filterMap, pure_eq_ok]
  · congr 3
    funext record
    cases record with
    | broken => rfl
    | cut keyText valueText =>
      simp only [KeySpec.association?, KeySpec.key?_eq]
      cases (keys.node.decode keyText).toOption <;> cases decode value valueText <;> rfl
  · intro entry hm
    obtain ⟨record, -, he⟩ := List.mem_filterMap.1 hm
    cases record with
    | broken => cases he
    | cut keyText valueText =>
      obtain ⟨key, hkey, he⟩ := Option.bind_eq_some_iff.1 he
      obtain ⟨item, -, ⟨⟩⟩ := Option.bind_eq_some_iff.1 he
      exact FlatNode.holds_of_decode (toOption_eq_some.1 hkey)

/-! ## Encoded containers -/

theorem encode_sequence {label : Label} {element : Schema} {sep : Bytes} {args : List String}
    {items : List Value} {texts : List Bytes}
    (h : List.Forall₂ (fun item text => encode element item = .ok text) items texts) :
    encode (.sequence label element sep args) (.seq items) = .ok (staged sep texts) := by
  have hm : (items.mapM fun item => return (← encode element item) ++ sep) =
      .ok (texts.map (· ++ sep)) := by
    rw [mapM_eq_ok_iff, List.forall₂_map_right_iff]
    exact h.imp fun item text ht => by rw [ht, ok_bind, pure_eq_ok]
  rw [encode, hm, ok_bind, pure_eq_ok, staged, List.flatMap_def]

theorem encode_set {label : Label} {keys : KeySpec} {entries : List (Value × Option Value)}
    {texts : List Bytes}
    (h : List.Forall₂ (fun entry text => keys.encodeKey entry.1 = .ok (text ++ keys.sep) ∧
      entry.2 = none) entries texts) :
    encode (.set label keys) (.keyed entries) = .ok (staged keys.sep texts) := by
  rw [encode, bind_eq_ok]
  refine ⟨texts.map (· ++ keys.sep), ?_, by rw [pure_eq_ok, staged, List.flatMap_def]⟩
  rw [mapM_eq_ok_iff, List.forall₂_map_right_iff]
  refine h.imp ?_
  rintro entry text ⟨hkey, hnone⟩
  simp only [hkey, hnone, ok_bind, pure_eq_ok]

theorem encode_map {label : Label} {keys : KeySpec} {value : Schema} {sep : Bytes}
    {entries : List (Value × Option Value)} {pairs : List (Bytes × Bytes)}
    (h : List.Forall₂ (fun entry pair => keys.encodeKey entry.1 = .ok (pair.1 ++ keys.sep) ∧
      ∃ item, entry.2 = some item ∧ encode value item = .ok pair.2) entries pairs) :
    encode (.map label keys value sep) (.keyed entries) =
      .ok (pairs.flatMap fun pair => pair.1 ++ keys.sep ++ pair.2 ++ sep) := by
  rw [encode, bind_eq_ok]
  refine ⟨pairs.map fun pair => pair.1 ++ keys.sep ++ pair.2 ++ sep, ?_,
    by rw [pure_eq_ok, List.flatMap_def]⟩
  rw [mapM_eq_ok_iff, List.forall₂_map_right_iff]
  refine h.imp ?_
  rintro entry pair ⟨hkey, item, hitem, henc⟩
  simp only [hkey, hitem, henc, ok_bind, pure_eq_ok]

/-! ## Values of the form of a schema -/

/-- Whether a value is of the form of a schema, with its entries in any order. -/
inductive Schema.HasForm : Schema → Value → Prop
  | flat {node : FlatNode} {value : FlatValue} (h : node.layout.Holds value) :
    HasForm (.flat node) (.flat value)
  | sequence {label : Label} {element : Schema} {sep : Bytes} {args : List String}
    {items : List Value} (h : ∀ item ∈ items, HasForm element item) :
    HasForm (.sequence label element sep args) (.seq items)
  | set {label : Label} {keys : KeySpec} {entries : List (Value × Option Value)}
    (hkey : ∀ entry ∈ entries, ∃ key, entry.1 = .flat key ∧ keys.node.layout.Holds key)
    (hnone : ∀ entry ∈ entries, entry.2 = none) : HasForm (.set label keys) (.keyed entries)
  | map {label : Label} {keys : KeySpec} {value : Schema} {sep : Bytes}
    {entries : List (Value × Option Value)}
    (hkey : ∀ entry ∈ entries, ∃ key, entry.1 = .flat key ∧ keys.node.layout.Holds key)
    (hsome : ∀ entry ∈ entries, ∃ item, entry.2 = some item)
    (hitem : ∀ entry ∈ entries, ∀ item, entry.2 = some item → HasForm value item) :
    HasForm (.map label keys value sep) (.keyed entries)
  | pair {label : Label} {first second : Schema} {sep : Bytes} {left right : Value}
    (hleft : HasForm first left) (hright : HasForm second right) :
    HasForm (.pair label first second sep) (.pair left right)

namespace Schema

theorem Holds.hasForm {s : Schema} {row : Value} (h : s.Holds row) : s.HasForm row := by
  induction s generalizing row with
  | flat node =>
    obtain ⟨value, rfl, hv⟩ := Holds.flat_iff.1 h
    exact .flat hv
  | sequence label element sep args ih =>
    obtain ⟨items, rfl, hitems⟩ := Holds.sequence_iff.1 h
    exact .sequence fun item hm => ih (hitems item hm)
  | set label keys =>
    obtain ⟨entries, rfl, hkeys, hnone⟩ := Holds.set_iff.1 h
    exact .set hkeys.1 hnone
  | map label keys value sep ih =>
    obtain ⟨entries, rfl, hkeys, hsome⟩ := Holds.map_iff.1 h
    refine .map hkeys.1 (fun entry hm => ?_) fun entry hm item he => ?_
    · obtain ⟨item, he, -⟩ := hsome entry hm
      exact ⟨item, he⟩
    · obtain ⟨item', he', hitem⟩ := hsome entry hm
      obtain rfl := Option.some.inj (he'.symm.trans he)
      exact ih hitem
  | pair label first second sep ih₁ ih₂ =>
    obtain ⟨left, right, rfl, hl, hr⟩ := Holds.pair_iff.1 h
    exact .pair (ih₁ hl) (ih₂ hr)

/-- A value that was decoded has the form of its schema. -/
theorem hasForm_of_decode {s : Schema} {chunk : Bytes} {row : Value}
    (h : decode s chunk = .ok row) : s.HasForm row := by
  induction s generalizing chunk row with
  | flat node =>
    rw [decode, map_eq_ok] at h
    obtain ⟨value, hd, rfl⟩ := h
    exact .flat (FlatNode.holds_of_decode hd)
  | sequence label element sep args ih =>
    obtain rfl := Except.ok.inj h
    refine .sequence fun item hm => ?_
    obtain ⟨piece, -, hd⟩ := List.mem_filterMap.1 hm
    exact ih (toOption_eq_some.1 hd)
  | set label keys =>
    rw [decode_set, Except.ok.injEq] at h
    obtain ⟨gathered, hgathered, hfrom⟩ :=
      exists_gatheredFrom ((Records.split keys.sep chunk).filterMap keys.member?)
    have hentries : ∀ entry ∈ gathered,
        (∃ key, entry.2.1 = .flat key ∧ keys.node.layout.Holds key) ∧ entry.2.2 = none := by
      intro entry hm
      obtain ⟨record, -, hmember⟩ := List.mem_filterMap.1 (hfrom.subset hm)
      obtain ⟨key, hkey, he⟩ := KeySpec.exists_of_member? hmember
      rw [he]
      exact ⟨⟨key, rfl, (KeySpec.key?_eq_some hkey).1⟩, rfl⟩
    rw [← h, hgathered]
    refine .set ?_ ?_ <;> rw [List.forall_mem_map]
    · exact fun entry hm => (hentries entry hm).1
    · exact fun entry hm => (hentries entry hm).2
  | map label keys value sep ih =>
    rw [decode_map, Except.ok.injEq] at h
    obtain ⟨gathered, hgathered, hfrom⟩ := exists_gatheredFrom
      ((Records.mapEntries keys.sep sep chunk).filterMap (keys.association? value))
    have hentries : ∀ entry ∈ gathered,
        (∃ key, entry.2.1 = .flat key ∧ keys.node.layout.Holds key) ∧
          ∃ item, entry.2.2 = some item ∧ value.HasForm item := by
      intro entry hm
      obtain ⟨record, -, hentry⟩ := List.mem_filterMap.1 (hfrom.subset hm)
      obtain ⟨_, _, key, item, -, hkey, hitem, he⟩ := KeySpec.exists_of_association? hentry
      rw [he]
      exact ⟨⟨key, rfl, (KeySpec.key?_eq_some hkey).1⟩, item, rfl, ih hitem⟩
    rw [← h, hgathered]
    refine .map ?_ ?_ ?_ <;> rw [List.forall_mem_map] <;> intro entry hm
    · exact (hentries entry hm).1
    · obtain ⟨item, he, -⟩ := (hentries entry hm).2
      exact ⟨item, he⟩
    · intro item he
      obtain ⟨item', he', hitem⟩ := (hentries entry hm).2
      obtain rfl := Option.some.inj (he'.symm.trans he)
      exact hitem
  | pair label first second sep ih₁ ih₂ =>
    rw [decode, bind_eq_ok] at h
    obtain ⟨⟨left, right⟩, -, h⟩ := h
    simp only [bind_eq_ok, pure_eq_ok] at h
    obtain ⟨leftItem, hleft, rightItem, hright, h⟩ := h
    obtain rfl := Except.ok.inj h
    exact .pair (ih₁ hleft) (ih₂ hright)

end Schema

theorem KeySpec.encodeKey_eq {keys : KeySpec} {key : FlatValue}
    (h : keys.node.layout.Holds key) :
    keys.encodeKey (.flat key) = .ok (keys.node.layout.text key ++ keys.sep) := by
  rw [KeySpec.encodeKey, FlatNode.encode_eq h]
  rfl

/-- A value of the form of a schema has a text. -/
theorem Schema.HasForm.exists_encode {s : Schema} {value : Value} (h : s.HasForm value) :
    ∃ text, encode s value = .ok text := by
  induction h with
  | flat h => exact ⟨_, FlatNode.encode_eq h⟩
  | sequence _ ih =>
    obtain ⟨texts, htexts⟩ := exists_forall₂ ih
    exact ⟨_, encode_sequence htexts⟩
  | @set label keys entries hkey hnone =>
    have hentries : ∀ entry ∈ entries, ∃ text,
        keys.encodeKey entry.1 = .ok (text ++ keys.sep) ∧ entry.2 = none := by
      intro entry hm
      obtain ⟨key, he, hform⟩ := hkey entry hm
      exact ⟨_, by rw [he, KeySpec.encodeKey_eq hform], hnone entry hm⟩
    obtain ⟨texts, htexts⟩ := exists_forall₂ hentries
    exact ⟨_, encode_set htexts⟩
  | @map label keys value sep entries hkey hsome _ ih =>
    have hentries : ∀ entry ∈ entries, ∃ pair : Bytes × Bytes,
        keys.encodeKey entry.1 = .ok (pair.1 ++ keys.sep) ∧
          ∃ item, entry.2 = some item ∧ encode value item = .ok pair.2 := by
      intro entry hm
      obtain ⟨key, he, hform⟩ := hkey entry hm
      obtain ⟨item, hitem⟩ := hsome entry hm
      obtain ⟨text, ht⟩ := ih entry hm item hitem
      exact ⟨(_, text), by rw [he, KeySpec.encodeKey_eq hform], item, hitem, ht⟩
    obtain ⟨pairs, hpairs⟩ := exists_forall₂ hentries
    exact ⟨_, encode_map hpairs⟩
  | @pair label first second sep left right _ _ ih₁ ih₂ =>
    obtain ⟨leftText, hl⟩ := ih₁
    obtain ⟨rightText, hr⟩ := ih₂
    exact ⟨leftText ++ sep ++ rightText, by simp only [encode, hl, hr, ok_bind, pure_eq_ok]⟩

end RecordStore
