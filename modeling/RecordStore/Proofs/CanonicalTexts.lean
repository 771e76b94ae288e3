import RecordStore.Proofs.PlainSchemas
import RecordStore.Proofs.QuietValues
import RecordStore.Proofs.SingleDelimiters
import RecordStore.Proofs.ValueForms

/-!
# Canonical texts

A value of a legible schema that was decoded has a text, and the text is decoded to the value, up to
its NaNs. The text is free of all marks that its chunk is free of, the separators of the schema
apart, so the delimiter of an enclosing container does not occur in it.

## Main definitions

* `KeepsMarks` — whether a text has only marks that its source has.
* `Schema.malformed` — how many parts of a chunk cannot be decoded.
* `Schema.Canonical` — the text of a value that was decoded from a chunk.

## Main statements

* `Schema.exists_canonical` — a decoded value has a text, from which it is read back.
-/

namespace RecordStore

/-! ## Marks -/

/-- Whether a text has only marks that its source has, separators apart. -/
def KeepsMarks (separators : List Bytes) (text source : Bytes) : Prop :=
  ∀ b, Bytes.isMark b = true → [b] ∉ separators → b ∈ text → b ∈ source

section

variable {separators : List Bytes} {text source source' : Bytes}

theorem KeepsMarks.not_mem (h : KeepsMarks separators text source) {q : UInt8}
    (hq : Bytes.isMark q = true) (hout : [q] ∉ separators) (hfree : q ∉ source) : q ∉ text :=
  fun hm => hfree (h q hq hout hm)

theorem KeepsMarks.mono (h : KeepsMarks separators text source) (hsub : source ⊆ source') :
    KeepsMarks separators text source' :=
  fun b hb hout hm => hsub (h b hb hout hm)

theorem keepsMarks_staged {q : UInt8} {texts : List Bytes}
    (h : ∀ text ∈ texts, KeepsMarks separators text source) :
    KeepsMarks ([q] :: separators) (staged [q] texts) source := by
  intro b hb hout hm
  obtain ⟨text, htext, hm⟩ := List.mem_flatMap.1 hm
  rw [List.mem_cons, not_or] at hout
  rcases List.mem_append.1 hm with hm | hm
  · exact h text htext b hb hout.2 hm
  · rw [List.mem_singleton.1 hm] at hout
    exact absurd rfl hout.1

end

theorem missing_eq_zero {α : Type} {parts : List (Option α)} :
    missing parts = 0 ↔ ∀ part ∈ parts, part.isSome = true := by
  rw [missing, List.countP_eq_zero]
  exact forall₂_congr fun part _ => by cases part <;> simp

namespace Schema

/-- How many parts of a chunk cannot be decoded: pieces of a sequence, members or entries of a keyed
container, or else the chunk itself. -/
def malformed (s : Schema) (chunk : Bytes) : Nat :=
  match s with
  | sequence _ element sep _ =>
    missing ((Records.split sep chunk).map fun piece => (decode element piece).toOption)
  | set _ keys => missing ((Records.split keys.sep chunk).map keys.key?)
  | map _ keys value sep =>
    missing ((Records.mapEntries keys.sep sep chunk).map (keys.association? value))
  | flat _ | pair .. => missing [(decode s chunk).toOption]

structure Canonical (s : Schema) (chunk : Bytes) (value : Value) (text : Bytes) : Prop where
  encode_eq : encode s value = .ok text
  readable : ∃ again, decode s text = .ok again
  complete : s.malformed text = 0
  decode_eq : value.Settled → decode s text = .ok value.quiet
  keepsMarks : KeepsMarks s.separators text chunk

theorem canonical_key {keys : KeySpec} {record bytes : Bytes} {key : FlatValue}
    (hn : keys.node.layout.isHollow = false) (hl : keys.node.layout.Legible)
    (h : keys.key? record = some (bytes, key)) :
    ∃ text, keys.encodeKey (.flat key) = .ok (text ++ keys.sep) ∧
      (keys.key? text).isSome = true ∧ (key.quiet = key → keys.key? text = some (bytes, key)) ∧
      KeepsMarks keys.node.layout.separators text record := by
  obtain ⟨hform, rfl⟩ := KeySpec.key?_eq_some h
  have hread := FlatNode.decode_text hn hl hform
  have hkey : keys.key? (keys.node.layout.text key) = some (key.quiet.stored, key.quiet) := by
    rw [KeySpec.key?, KeySpec.decodeKey, hread, ok_bind,
      FlatNode.write_eq (FlatNode.holds_of_decode hread)]
    rfl
  refine ⟨keys.node.layout.text key, ?_, ?_, ?_, ?_⟩
  · exact KeySpec.encodeKey_eq hform
  · rw [hkey, Option.isSome_some]
  · intro hquiet
    rw [hkey, hquiet]
  · intro b hb hne hm
    rw [KeySpec.key?, toOption_eq_some, KeySpec.decodeKey, bind_eq_ok] at h
    obtain ⟨key', hd, h⟩ := h
    rw [bind_eq_ok] at h
    obtain ⟨_, -, h⟩ := h
    obtain rfl : key' = key := by grind [pure_eq_ok]
    exact FlatNode.mem_of_mem_text hl hd hb hne hm

theorem canonical_sequence {label : Label} {element : Schema} {sep : Bytes} {args : List String}
    (hsep : MarkOutside sep element.separators)
    (ih : ∀ {piece value}, decode element piece = .ok value →
      ∃ text, element.Canonical piece value text) {chunk : Bytes} {value : Value}
    (h : decode (sequence label element sep args) chunk = .ok value) :
    ∃ text, (sequence label element sep args).Canonical chunk value text := by
  obtain ⟨q, hq, rfl, hout⟩ := hsep
  obtain rfl := Except.ok.inj h
  have hitems : ∀ item ∈ (Records.split [q] chunk).filterMap fun piece =>
      (decode element piece).toOption, ∃ text, encode element item = .ok text ∧
        (item.Settled → decode element text = .ok item.quiet) ∧ q ∉ text ∧
        KeepsMarks element.separators text chunk ∧
          (decode element text).toOption.isSome = true := by
    intro item hm
    obtain ⟨piece, hpiece, hd⟩ := List.mem_filterMap.1 hm
    obtain ⟨hfree, hsub⟩ := Records.mem_split_singleton hpiece
    obtain ⟨text, ht⟩ := ih (toOption_eq_some.1 hd)
    obtain ⟨again, hagain⟩ := ht.readable
    exact ⟨text, ht.encode_eq, ht.decode_eq, ht.keepsMarks.not_mem hq hout hfree,
      ht.keepsMarks.mono hsub, by rw [hagain]; rfl⟩
  obtain ⟨texts, htexts⟩ := exists_forall₂ hitems
  have hmem : ∀ text ∈ texts, q ∉ text ∧ KeepsMarks element.separators text chunk ∧
      (decode element text).toOption.isSome = true := by
    intro text hm
    obtain ⟨item, -, -, -, hmem⟩ := exists_of_mem_right htexts hm
    exact hmem
  have hsplit := Records.split_staged_singleton fun text hm => (hmem text hm).1
  refine ⟨staged [q] texts, encode_sequence (htexts.imp fun _ _ hr => hr.1), ⟨_, by rw [decode]⟩,
    ?_, ?_, ?_⟩
  · rw [malformed, hsplit, missing_eq_zero, List.forall_mem_map]
    exact fun text hm => (hmem text hm).2.2
  · intro hsettled
    rw [Value.settled_seq] at hsettled
    rw [decode, hsplit, filterMap_of_forall₂ htexts fun item hm text hr =>
      toOption_eq_some.2 (hr.2.1 (hsettled item hm)), Value.quiet_seq]
  · rw [separators_sequence]
    exact keepsMarks_staged fun text hm => (hmem text hm).2.1

theorem canonical_member {keys : KeySpec} (hn : keys.node.layout.isHollow = false)
    (hl : keys.node.layout.Legible) {record : Bytes} {entry : Bytes × Value × Option Value}
    (h : keys.member? record = some entry) :
    ∃ text, (entry.2.1.quiet = entry.2.1 → keys.member? text = some (quietEntry entry)) ∧
      (keys.encodeKey entry.2.1 = .ok (text ++ keys.sep) ∧ entry.2.2 = none) ∧
      KeepsMarks keys.node.layout.separators text record ∧ (keys.key? text).isSome = true := by
  obtain ⟨bytes, parts⟩ := entry
  obtain ⟨key, hkey, rfl⟩ : ∃ key, keys.key? record = some (bytes, key) ∧
      parts = (.flat key, none) := KeySpec.exists_of_member? h
  obtain ⟨text, henc, hsome, hdec, hmarks⟩ := canonical_key hn hl hkey
  refine ⟨text, ?_, ⟨henc, rfl⟩, hmarks, hsome⟩
  intro hquiet
  have hquiet : key.quiet = key := Value.flat.inj hquiet
  rw [KeySpec.member?, hdec hquiet, Option.map_some, quietEntry, Value.quiet_flat, hquiet]
  rfl

theorem canonical_set {label : Label} {keys : KeySpec}
    (hsep : MarkOutside keys.sep keys.node.layout.separators)
    (hn : keys.node.layout.isHollow = false) (hl : keys.node.layout.Legible) {chunk : Bytes}
    {value : Value} (h : decode (set label keys) chunk = .ok value) :
    ∃ text, (set label keys).Canonical chunk value text := by
  obtain ⟨q, hq, hsep, hout⟩ := hsep
  rw [hsep] at hout
  rw [decode_set, hsep, Except.ok.injEq] at h
  obtain ⟨gathered, hgathered, hfrom⟩ :=
    exists_gatheredFrom ((Records.split [q] chunk).filterMap keys.member?)
  have hentries : ∀ entry ∈ gathered, ∃ text,
      (entry.2.1.quiet = entry.2.1 → keys.member? text = some (quietEntry entry)) ∧
      (keys.encodeKey entry.2.1 = .ok (text ++ keys.sep) ∧ entry.2.2 = none) ∧ q ∉ text ∧
        KeepsMarks keys.node.layout.separators text chunk ∧ (keys.key? text).isSome = true := by
    intro entry hm
    obtain ⟨record, hrecord, hmember⟩ := List.mem_filterMap.1 (hfrom.subset hm)
    obtain ⟨hfree, hsub⟩ := Records.mem_split_singleton hrecord
    obtain ⟨text, hread, hwritten, hmarks, hsome⟩ := canonical_member hn hl hmember
    exact ⟨text, hread, hwritten, hmarks.not_mem hq hout hfree, hmarks.mono hsub, hsome⟩
  obtain ⟨texts, htexts⟩ := exists_forall₂ hentries
  have hmem : ∀ text ∈ texts, q ∉ text ∧ KeepsMarks keys.node.layout.separators text chunk ∧
      (keys.key? text).isSome = true := by
    intro text hm
    obtain ⟨entry, -, -, -, hmem⟩ := exists_of_mem_right htexts hm
    exact hmem
  have hsplit := Records.split_staged_singleton fun text hm => (hmem text hm).1
  rw [← h, hgathered]
  refine ⟨staged [q] texts, ?_, ⟨_, decode_set label keys _⟩, ?_, ?_, ?_⟩
  · rw [← hsep]
    apply encode_set
    rw [List.forall₂_map_left_iff]
    exact htexts.imp fun _ _ hr => hr.2.1
  · rw [malformed, hsep, hsplit, missing_eq_zero, List.forall_mem_map]
    exact fun text hm => (hmem text hm).2.2
  · intro hsettled
    rw [Value.settled_keyed, List.forall_mem_map] at hsettled
    rw [decode_set, hsep, hsplit,
      filterMap_of_forall₂ htexts fun entry hm text hr => hr.1 (hsettled.1 entry hm),
      gatherEntries_quiet hfrom.nodup]
  · rw [separators_set, hsep]
    exact keepsMarks_staged fun text hm => (hmem text hm).2.1

/-- A decoded entry of a map has texts of its key and of its value. -/
theorem canonical_entry {keys : KeySpec} {value : Schema}
    (hn : keys.node.layout.isHollow = false) (hl : keys.node.layout.Legible)
    (ih : ∀ {piece item}, decode value piece = .ok item →
      ∃ text, value.Canonical piece item text) {record : Records.Entry}
    {entry : Bytes × Value × Option Value} (h : keys.association? value record = some entry) :
    ∃ keyText valueText, record = .cut keyText valueText ∧ ∃ pair : Bytes × Bytes,
      (entry.2.1.quiet = entry.2.1 → (∀ item, entry.2.2 = some item → item.Settled) →
        keys.association? value (.cut pair.1 pair.2) = some (quietEntry entry)) ∧
      (keys.encodeKey entry.2.1 = .ok (pair.1 ++ keys.sep) ∧
        ∃ item, entry.2.2 = some item ∧ encode value item = .ok pair.2) ∧
      KeepsMarks keys.node.layout.separators pair.1 keyText ∧
      KeepsMarks value.separators pair.2 valueText ∧
      (keys.association? value (.cut pair.1 pair.2)).isSome = true := by
  obtain ⟨bytes, parts⟩ := entry
  obtain ⟨keyText, valueText, key, item, rfl, hkey, hitem, rfl⟩ :
      ∃ keyText valueText key item, record = .cut keyText valueText ∧
        keys.key? keyText = some (bytes, key) ∧ decode value valueText = .ok item ∧
          parts = (.flat key, some item) := KeySpec.exists_of_association? h
  obtain ⟨text, henc, hsome, hdec, hmarks⟩ := canonical_key hn hl hkey
  obtain ⟨text', ht'⟩ := ih hitem
  refine ⟨keyText, valueText, rfl, (text, text'), ?_, ⟨henc, item, rfl, ht'.encode_eq⟩, hmarks,
    ht'.keepsMarks, ?_⟩
  · intro hquiet hsettled
    have hquiet : key.quiet = key := Value.flat.inj hquiet
    simp [KeySpec.association?, hdec hquiet, ht'.decode_eq (hsettled item rfl), Except.toOption,
      quietEntry, hquiet]
  · obtain ⟨again, hagain⟩ := ht'.readable
    obtain ⟨key', hkey'⟩ := Option.isSome_iff_exists.1 hsome
    simp [KeySpec.association?, hkey', hagain, Except.toOption]

theorem canonical_map {label : Label} {keys : KeySpec} {value : Schema} {sep : Bytes}
    (hkeys : MarkOutside keys.sep keys.node.layout.separators)
    (hnode : MarkOutside sep keys.node.layout.separators)
    (hn : keys.node.layout.isHollow = false) (hl : keys.node.layout.Legible)
    (hvalue : MarkOutside sep value.separators)
    (ih : ∀ {piece item}, decode value piece = .ok item →
      ∃ text, value.Canonical piece item text) {chunk : Bytes} {row : Value}
    (h : decode (map label keys value sep) chunk = .ok row) :
    ∃ text, (map label keys value sep).Canonical chunk row text := by
  obtain ⟨q, hq, hkeySep, hkeyOut⟩ := hkeys
  obtain ⟨r, hr, rfl, hnodeOut⟩ := hnode
  obtain ⟨-, -, -, hvalueOut⟩ := hvalue
  rw [hkeySep] at hkeyOut
  rw [decode_map, hkeySep, Except.ok.injEq] at h
  obtain ⟨gathered, hgathered, hfrom⟩ :=
    exists_gatheredFrom ((Records.mapEntries [q] [r] chunk).filterMap (keys.association? value))
  have hentries : ∀ entry ∈ gathered, ∃ pair : Bytes × Bytes,
      (entry.2.1.quiet = entry.2.1 → (∀ item, entry.2.2 = some item → item.Settled) →
        keys.association? value (.cut pair.1 pair.2) = some (quietEntry entry)) ∧
      (keys.encodeKey entry.2.1 = .ok (pair.1 ++ keys.sep) ∧
        ∃ item, entry.2.2 = some item ∧ encode value item = .ok pair.2) ∧
      (q ∉ pair.1 ∧ r ∉ pair.1 ∧ r ∉ pair.2) ∧
      KeepsMarks keys.node.layout.separators pair.1 chunk ∧
      KeepsMarks value.separators pair.2 chunk ∧
      (keys.association? value (.cut pair.1 pair.2)).isSome = true := by
    intro entry hm
    obtain ⟨record, hrecord, hentry⟩ := List.mem_filterMap.1 (hfrom.subset hm)
    obtain ⟨keyText, valueText, rfl, pair, hread, hwritten, hkey, hitem, hsome⟩ :=
      canonical_entry hn hl ih hentry
    obtain ⟨⟨hfree₁, hfree₂, hsub⟩, hfree₃, hsub'⟩ := Records.mem_mapEntries_singleton hrecord
    exact ⟨pair, hread, hwritten,
      ⟨hkey.not_mem hq hkeyOut hfree₁, hkey.not_mem hr hnodeOut hfree₂,
        hitem.not_mem hr hvalueOut hfree₃⟩, hkey.mono hsub, hitem.mono hsub', hsome⟩
  obtain ⟨pairs, hpairs⟩ := exists_forall₂ hentries
  have hfree : ∀ pair ∈ pairs, q ∉ pair.1 ∧ r ∉ pair.1 ∧ r ∉ pair.2 := by
    intro pair hm
    obtain ⟨entry, -, -, -, hfree, -⟩ := exists_of_mem_right hpairs hm
    exact hfree
  rw [← h, hgathered]
  refine ⟨pairs.flatMap fun pair => pair.1 ++ [q] ++ pair.2 ++ [r], ?_,
    ⟨_, decode_map label keys value [r] _⟩, ?_, ?_, ?_⟩
  · rw [← hkeySep]
    apply encode_map
    rw [List.forall₂_map_left_iff]
    exact hpairs.imp fun _ _ hr => hr.2.1
  · rw [malformed, hkeySep, Records.mapEntries_flatMap hfree, missing_eq_zero,
      List.forall_mem_map, List.forall_mem_map]
    intro pair hm
    obtain ⟨entry, -, -, -, -, -, -, hsome⟩ := exists_of_mem_right hpairs hm
    exact hsome
  · intro hsettled
    rw [Value.settled_keyed, List.forall_mem_map, List.forall_mem_map] at hsettled
    obtain ⟨hkey, hitem⟩ := hsettled
    have hread : (pairs.map fun pair => Records.Entry.cut pair.1 pair.2).filterMap
        (keys.association? value) = gathered.map quietEntry := by
      rw [List.filterMap_map]
      exact filterMap_of_forall₂ hpairs fun entry hm _ hr => hr.1 (hkey entry hm) (hitem entry hm)
    rw [decode_map, hkeySep, Records.mapEntries_flatMap hfree, hread,
      gatherEntries_quiet hfrom.nodup]
  · intro b hb hne hm
    obtain ⟨pair, hpair, hm⟩ := List.mem_flatMap.1 hm
    obtain ⟨entry, -, -, -, -, hkey, hitem, -⟩ := exists_of_mem_right hpairs hpair
    have := hkey b hb
    have := hitem b hb
    grind [separators_map]

theorem canonical_pair {label : Label} {first second : Schema} {sep : Bytes}
    (hsep : MarkOutside sep first.separators)
    (ih₁ : ∀ {piece item}, decode first piece = .ok item →
      ∃ text, first.Canonical piece item text)
    (ih₂ : ∀ {piece item}, decode second piece = .ok item →
      ∃ text, second.Canonical piece item text) {chunk : Bytes} {value : Value}
    (h : decode (pair label first second sep) chunk = .ok value) :
    ∃ text, (pair label first second sep).Canonical chunk value text := by
  obtain ⟨q, hq, rfl, hout⟩ := hsep
  rw [decode, bind_eq_ok] at h
  obtain ⟨⟨left, right⟩, hsides, h⟩ := h
  simp only [bind_eq_ok, pure_eq_ok] at h
  obtain ⟨leftItem, hleft, rightItem, hright, h⟩ := h
  obtain rfl := Except.ok.inj h
  have hcut : Bytes.cut? [q] chunk = some (left, right) := by
    grind [splitPair]
  obtain ⟨leftText, hl⟩ := ih₁ hleft
  obtain ⟨rightText, hr⟩ := ih₂ hright
  have hfree : q ∉ leftText :=
    hl.keepsMarks.not_mem hq hout (Bytes.not_mem_of_cut?_singleton hcut)
  have hchunk := Bytes.eq_of_cut? hcut
  have hdecode {leftAgain rightAgain : Value} (h₁ : decode first leftText = .ok leftAgain)
      (h₂ : decode second rightText = .ok rightAgain) :
      decode (pair label first second [q]) (leftText ++ [q] ++ rightText) =
        .ok (.pair leftAgain rightAgain) := by
    rw [decode, bind_eq_ok]
    refine ⟨(leftText, rightText), ?_, ?_⟩
    · simp [splitPair, Bytes.cut?_singleton hfree rightText]
    · simp only [h₁, h₂, ok_bind, pure_eq_ok]
  have hreadable : ∃ again,
      decode (pair label first second [q]) (leftText ++ [q] ++ rightText) = .ok again := by
    obtain ⟨leftAgain, h₁⟩ := hl.readable
    obtain ⟨rightAgain, h₂⟩ := hr.readable
    exact ⟨_, hdecode h₁ h₂⟩
  refine ⟨leftText ++ [q] ++ rightText, ?_, hreadable, ?_, ?_, ?_⟩
  · simp only [encode, hl.encode_eq, hr.encode_eq, ok_bind, pure_eq_ok]
  · obtain ⟨again, hagain⟩ := hreadable
    rw [malformed, hagain]
    rfl
  · intro hsettled
    obtain ⟨hsettled₁, hsettled₂⟩ := Value.settled_pair.1 hsettled
    exact hdecode (hl.decode_eq hsettled₁) (hr.decode_eq hsettled₂)
  · intro b hb hne hm
    have hl := hl.keepsMarks b hb
    have hr := hr.keepsMarks b hb
    grind [separators_pair]

/-- A decoded value has a text, from which it is read back up to its NaNs. -/
theorem exists_canonical {s : Schema} (hs : s.Marked Layout.Legible) {chunk : Bytes}
    {value : Value} (h : decode s chunk = .ok value) : ∃ text, s.Canonical chunk value text := by
  induction s generalizing chunk value with
  | flat node =>
    obtain ⟨hn, hl⟩ := hs
    rw [decode, map_eq_ok] at h
    obtain ⟨value, hd, rfl⟩ := h
    have hform := FlatNode.holds_of_decode hd
    have hagain : decode (flat node) (node.layout.text value) = .ok (.flat value.quiet) := by
      rw [decode, FlatNode.decode_text hn hl hform]
      rfl
    exact ⟨_, FlatNode.encode_eq hform, ⟨_, hagain⟩, by rw [malformed, hagain]; rfl,
      fun _ => hagain,
      fun b hb hne hm => FlatNode.mem_of_mem_text hl hd hb (by simpa using hne) hm⟩
  | sequence label element sep args ih => exact canonical_sequence hs.1 (ih hs.2) h
  | set label keys => exact canonical_set hs.1 hs.2.1 hs.2.2 h
  | map label keys value sep ih =>
    obtain ⟨⟨hkeys, hnode, hn, hl⟩, hvalue, hs⟩ := hs
    exact canonical_map hkeys hnode hn hl hvalue (ih hs) h
  | pair label first second sep ih₁ ih₂ =>
    obtain ⟨hsep, hs₁, hs₂⟩ := hs
    exact canonical_pair hsep (ih₁ hs₁) (ih₂ hs₂) h

end Schema

end RecordStore
