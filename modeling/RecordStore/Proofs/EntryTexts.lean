import RecordStore.Proofs.ParsedSchemas
import RecordStore.Proofs.PortionedRecords
import RecordStore.Proofs.ValueForms

/-!
# The text of an entry

A key and a value that share no byte with the separators of a map are read back from the text of
their entry, unless the value separator occurs before the end of that text. A value separator inside
of the key separator always does, and then the map never has an entry at all.

## Main statements

* `Bytes.exists_append_of_disjoint` — a front that shares no byte with a needle has no part in an
  occurrence of it.
* `Records.endsAt_append_iff` — where the value separator ends an entry.
* `Records.mapEntries_of_infix` — with the value separator in the key separator no record is cut.
* `decode_map_of_entry` — when the text of an entry is decoded to the entry.
-/

namespace RecordStore

/-! ## Fronts without bytes of a needle -/

namespace Bytes

/-- A front that shares no byte with a needle has no part in an occurrence of it. -/
theorem exists_append_of_disjoint {needle front rest before after : Bytes} (hn : needle ≠ [])
    (hf : front.Disjoint needle) (h : front ++ rest = before ++ needle ++ after) :
    ∃ m, before = front ++ m ∧ rest = m ++ needle ++ after := by
  induction front generalizing before with
  | nil => exact ⟨before, rfl, h⟩
  | cons b front ih =>
    obtain ⟨hb, hf⟩ := List.disjoint_cons_left.1 hf
    cases before with
    | nil =>
      obtain ⟨c, needle, rfl⟩ := List.exists_cons_of_ne_nil hn
      obtain ⟨rfl, -⟩ := List.cons.inj h
      exact absurd List.mem_cons_self hb
    | cons c before =>
      obtain ⟨rfl, htail⟩ := List.cons.inj h
      obtain ⟨m, rfl, hrest⟩ := ih hf htail
      exact ⟨m, rfl, hrest⟩

end Bytes

namespace Records

theorem endsAt_nil (delim : Bytes) : EndsAt delim [] := by
  intro before after h
  have := congrArg List.length h
  simp only [List.length_append, List.length_nil] at this
  exact List.length_eq_zero_iff.1 (by omega)

/-- A delimiter that ends a record ends it also behind a front that shares no byte with it. -/
theorem EndsAt.append_left {delim front record : Bytes} (hd : delim ≠ [])
    (hf : front.Disjoint delim) (h : EndsAt delim record) : EndsAt delim (front ++ record) := by
  intro before after heq
  rw [List.append_assoc] at heq
  obtain ⟨m, -, hrecord⟩ := Bytes.exists_append_of_disjoint hd hf heq
  exact h m after hrecord

/-- A text that shares no byte with a delimiter delimits cleanly. -/
theorem delimitsCleanly_of_disjoint {delim text : Bytes} (hd : delim ≠ [])
    (ht : text.Disjoint delim) : delimitsCleanly text delim = true := by
  have hends := (endsAt_nil delim).append_left hd ht
  rw [List.append_nil] at hends
  exact (delimitsCleanly_iff_endsAt hd).2 hends

/-- A delimiter that ends a record is not in it. -/
theorem EndsAt.not_infix_record {delim record : Bytes} (hd : delim ≠ [])
    (h : EndsAt delim record) : ¬delim <:+: record := by
  rintro ⟨before, after, rfl⟩
  have := h before (after ++ delim) (List.append_assoc ..)
  exact hd (List.append_eq_nil_iff.1 this).2

theorem not_infix_of_mem_split {delim input record : Bytes} (hd : delim ≠ [])
    (h : record ∈ split delim input) : ¬delim <:+: record := by
  rcases splitsAs_split hd input with ⟨-, hall⟩ | ⟨whole, tail, hsplit, -, hall, -, htail⟩
  · exact (hall record h).not_infix_record hd
  · rw [hsplit, List.mem_append, List.mem_singleton] at h
    rcases h with h | rfl
    · exact (hall record h).not_infix_record hd
    · exact htail

/-! ## Entries -/

/-- A value that shares no byte with the separator behind it keeps this from overlapping with the
key separator, so that it only has to be no part of that. -/
theorem endsAt_append_iff {keySep sep value : Bytes} (hs : sep ≠ []) (hv : value ≠ [])
    (hd : value.Disjoint sep) : EndsAt sep (keySep ++ value) ↔ ¬sep <:+: keySep := by
  constructor
  · intro h hin
    exact h.not_infix_record hs (hin.trans (List.prefix_append ..).isInfix)
  · intro hin before after heq
    rw [List.append_assoc, List.append_assoc] at heq
    rcases List.append_eq_append_iff.1 heq with ⟨m, -, hm⟩ | ⟨m, rfl, hm⟩
    · rw [← List.append_assoc] at hm
      exact (endsAt_nil sep).append_left hs hd m after (by rwa [List.append_nil])
    · -- The occurrence begins in the key separator and does not end there, so it would take a
      -- byte of the value.
      rcases List.append_eq_append_iff.1 hm with ⟨x, rfl, -⟩ | ⟨x, rfl, hx⟩
      · exact absurd ⟨before, x, List.append_assoc ..⟩ hin
      · cases x with
        | nil => exact absurd ⟨before, [], by simp⟩ hin
        | cons b x =>
          obtain ⟨c, value, rfl⟩ := List.exists_cons_of_ne_nil hv
          obtain ⟨rfl, -⟩ := List.cons.inj hx
          exact absurd (List.mem_append_right m List.mem_cons_self) (hd List.mem_cons_self)

/-- With the value separator in the key separator no record can be cut. -/
theorem mapEntries_of_infix {keySep sep : Bytes} (hs : sep ≠ []) (hne : keySep ≠ sep)
    (h : sep <:+: keySep) (input : Bytes) :
    mapEntries keySep sep input = (split sep input).map .broken := by
  rw [mapEntries_of_ne hne]
  refine List.map_congr_left fun record hm => ?_
  have hnone : Bytes.cut? keySep record = none :=
    Bytes.cut?_eq_none_iff.2 fun hin => not_infix_of_mem_split hs hm (h.trans hin)
  rw [cutAt, hnone, ite_self]

example : mapEntries (Bytes.ofText ",;") (Bytes.ofText ";") (Bytes.ofText "1,;2;") =
    [.broken (Bytes.ofText "1,"), .broken (Bytes.ofText "2")] := by decide +kernel

/-- The text of an entry is cut into its key and its value, if these share no byte with the
separators and the value separator ends it. -/
theorem mapEntries_of_endsAt {keySep sep key value : Bytes} (hk : keySep ≠ []) (hs : sep ≠ [])
    (hkey : key.Disjoint keySep) (hkey' : key.Disjoint sep) (hvalue : value.Disjoint sep)
    (h : keySep = sep ∨ EndsAt sep (keySep ++ value)) :
    mapEntries keySep sep (key ++ keySep ++ value ++ sep) = [.cut key value] := by
  have hjoined := @mapEntries_joined keySep sep hk hs [(key, value)]
  simp only [List.forall_mem_singleton, List.flatMap_singleton, List.map_singleton] at hjoined
  refine hjoined (delimitsCleanly_of_disjoint hk hkey) ?_
  split
  · exact delimitsCleanly_of_disjoint hs hvalue
  · have hends := (h.resolve_left ‹_›).append_left hs hkey'
    exact (delimitsCleanly_iff_endsAt hs).2 (by rwa [List.append_assoc])

end Records

/-! ## Maps of one entry -/

theorem KeySpec.exists_key?_of_decode {keys : KeySpec} {text : Bytes} {key : Value}
    (h : decode (.flat keys.node) text = .ok key) :
    ∃ bytes flat, keys.key? text = some (bytes, flat) ∧ key = .flat flat := by
  rw [decode] at h
  cases hflat : keys.node.decode text with
  | error => rw [hflat] at h; cases h
  | ok flat =>
    rw [hflat] at h
    obtain rfl := Except.ok.inj h
    have hwrite := FlatNode.write_eq (FlatNode.holds_of_decode hflat)
    exact ⟨_, flat, by rw [key?, decodeKey, hflat, ok_bind, hwrite]; rfl, rfl⟩

/-- A key and a value that share no byte with the separators of a map are read back from the text of
their entry if the separators are equal or the value separator ends that text. Unless the value is
empty, the latter means that the value separator is no part of the key separator. If it is one, and
the separators differ, the map has no entries whatever the text. -/
theorem decode_map_of_entry {format : String} {label : Label} {keys : KeySpec} {value : Schema}
    {sep : Bytes} (hp : parse format = .ok (.map label keys value sep))
    {keyText valueText : Bytes} {key item : Value}
    (hkey : decode (.flat keys.node) keyText = .ok key)
    (hitem : decode value valueText = .ok item)
    (hdisjoint : (keyText ++ valueText).Disjoint (keys.sep ++ sep)) :
    (keys.sep = sep ∨ Records.EndsAt sep (keys.sep ++ valueText) →
      decode (.map label keys value sep) (keyText ++ keys.sep ++ valueText ++ sep) =
        .ok (.keyed [(key, some item)])) ∧
    (valueText ≠ [] →
      (decode (.map label keys value sep) (keyText ++ keys.sep ++ valueText ++ sep) =
        .ok (.keyed [(key, some item)]) ↔ keys.sep = sep ∨ ¬sep <:+: keys.sep)) ∧
    (keys.sep ≠ sep → sep <:+: keys.sep →
      ∀ chunk, decode (.map label keys value sep) chunk = .ok (.keyed [])) := by
  obtain ⟨hk, -, hs, -⟩ : (Schema.map label keys value sep).Separated := separated_of_parse hp
  obtain ⟨hkeyText, hvalueText⟩ := List.disjoint_append_left.1 hdisjoint
  obtain ⟨hkeySep, hkeyEnd⟩ := List.disjoint_append_right.1 hkeyText
  obtain ⟨-, hvalueEnd⟩ := List.disjoint_append_right.1 hvalueText
  have hone (h : keys.sep = sep ∨ Records.EndsAt sep (keys.sep ++ valueText)) :
      decode (.map label keys value sep) (keyText ++ keys.sep ++ valueText ++ sep) =
        .ok (.keyed [(key, some item)]) := by
    obtain ⟨bytes, flat, hread, rfl⟩ := KeySpec.exists_key?_of_decode hkey
    have hentry : keys.association? value (.cut keyText valueText) =
        some (bytes, .flat flat, some item) := by
      rw [KeySpec.association?, hread, hitem]
      rfl
    rw [decode_map, Records.mapEntries_of_endsAt hk hs hkeySep hkeyEnd hvalueEnd h,
      List.filterMap_cons_some hentry, List.filterMap_nil, gatherEntries_of_nodup (by simp),
      List.map_singleton]
  have hnever (hne : keys.sep ≠ sep) (hin : sep <:+: keys.sep) (chunk : Bytes) :
      decode (.map label keys value sep) chunk = .ok (.keyed []) := by
    have hnone : ((Records.split sep chunk).map Records.Entry.broken).filterMap
        (keys.association? value) = [] := by
      rw [List.filterMap_map, List.filterMap_eq_nil_iff]
      exact fun _ _ => rfl
    rw [decode_map, Records.mapEntries_of_infix hs hne hin, hnone,
      gatherEntries_of_nodup (by simp), List.map_nil]
  refine ⟨hone, fun hv => ⟨fun h => ?_, fun h => hone ?_⟩, hnever⟩
  · by_contra hnot
    obtain ⟨hne, hin⟩ := not_or.1 hnot
    rw [hnever hne (not_not.1 hin)] at h
    cases h
  · exact h.imp_right (Records.endsAt_append_iff hs hv hvalueEnd).2

def numberMap (source : String) (keySep sep : Bytes) : Schema :=
  .map ⟨0, source⟩ ⟨⟨⟨1, "l"⟩, .primitive .i32⟩, keySep, true, []⟩
    (.flat ⟨⟨2, "l"⟩, .primitive .i32⟩) sep

theorem parse_numberMap :
    parse "T(l)=(l)=;=" = .ok (numberMap "T(l)=(l)=;=" (Bytes.ofText "=") (Bytes.ofText "=;=")) ∧
      parse "T(l),;(l);" =
        .ok (numberMap "T(l),;(l);" (Bytes.ofText ",;") (Bytes.ofText ";")) :=
  ⟨by decide +kernel, by decide +kernel⟩

/-- Separators may share bytes, and the key separator may be a part of the value separator. -/
theorem decode_map_of_entry_sample :
    parse "T(l)=(l)=;=" = .ok (numberMap "T(l)=(l)=;=" (Bytes.ofText "=") (Bytes.ofText "=;=")) ∧
      decode (numberMap "T(l)=(l)=;=" (Bytes.ofText "=") (Bytes.ofText "=;="))
          (Bytes.ofText "1=2=;=") =
        .ok (.keyed [(.flat (.scalar ⟨.i32, 1⟩), some (.flat (.scalar ⟨.i32, 2⟩)))]) := by
  obtain ⟨hp, -⟩ := parse_numberMap
  have hkey : decode (.flat ⟨⟨1, "l"⟩, .primitive .i32⟩) (Bytes.ofText "1") =
      .ok (.flat (.scalar ⟨.i32, 1⟩)) := decode_flat rfl
  have hitem : decode (.flat ⟨⟨2, "l"⟩, .primitive .i32⟩) (Bytes.ofText "2") =
      .ok (.flat (.scalar ⟨.i32, 2⟩)) := decode_flat rfl
  have hdisjoint : (Bytes.ofText "1" ++ Bytes.ofText "2").Disjoint
      (Bytes.ofText "=" ++ Bytes.ofText "=;=") := by
    show List.Disjoint [0x31, 0x32] [0x3d, 0x3d, 0x3b, 0x3d]
    simp
  obtain ⟨-, hiff, -⟩ := decode_map_of_entry hp hkey hitem hdisjoint
  exact ⟨hp, (hiff (by decide)).2 (.inr (by decide))⟩

/-- A map with the value separator in the key separator is accepted, and has no entries. -/
theorem entry_is_lost_sample :
    parse "T(l),;(l);" = .ok (numberMap "T(l),;(l);" (Bytes.ofText ",;") (Bytes.ofText ";")) ∧
      decode (.flat ⟨⟨1, "l"⟩, .primitive .i32⟩) (Bytes.ofText "1") =
        .ok (.flat (.scalar ⟨.i32, 1⟩)) ∧
      decode (.flat ⟨⟨2, "l"⟩, .primitive .i32⟩) (Bytes.ofText "2") =
        .ok (.flat (.scalar ⟨.i32, 2⟩)) ∧
      (Bytes.ofText "1" ++ Bytes.ofText "2").Disjoint (Bytes.ofText ",;" ++ Bytes.ofText ";") ∧
      decode (numberMap "T(l),;(l);" (Bytes.ofText ",;") (Bytes.ofText ";"))
          (Bytes.ofText "1" ++ Bytes.ofText ",;" ++ Bytes.ofText "2" ++ Bytes.ofText ";") =
        .ok (.keyed []) ∧
      encode (numberMap "T(l),;(l);" (Bytes.ofText ",;") (Bytes.ofText ";"))
          (.keyed [(.flat (.scalar ⟨.i32, 1⟩), some (.flat (.scalar ⟨.i32, 2⟩)))]) =
        .ok (Bytes.ofText "1,;2;") := by
  have hdisjoint : (Bytes.ofText "1" ++ Bytes.ofText "2").Disjoint
      (Bytes.ofText ",;" ++ Bytes.ofText ";") := by
    show List.Disjoint [0x31, 0x32] [0x2c, 0x3b, 0x3b]
    simp
  have hlost : Records.mapEntries (Bytes.ofText ",;") (Bytes.ofText ";")
      (Bytes.ofText "1" ++ Bytes.ofText ",;" ++ Bytes.ofText "2" ++ Bytes.ofText ";") =
        [.broken (Bytes.ofText "1,"), .broken (Bytes.ofText "2")] := by decide +kernel
  refine ⟨parse_numberMap.2, decode_flat rfl, decode_flat rfl, hdisjoint, ?_, by decide +kernel⟩
  rw [numberMap, decode_map, hlost]
  rfl

end RecordStore
