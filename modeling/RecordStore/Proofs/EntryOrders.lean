import RecordStore.Proofs.BuiltArchives

/-!
# The order of entries

A keyed container does not depend on the order in which its entries come, as long as entries of one
key keep theirs: the last one of each key counts, and what is kept is stored in the order of the
keys.

## Main definitions

* `Shuffles` — a permutation that keeps the order among entries of one key.
* `EntryText` — the records of an entry.
* `Schema.HasEntry`, `Schema.entryKey?` — the entries of a keyed schema, and the bytes of their
  keys.

## Main statements

* `KeySpec.arranged_of_shuffles` — shuffled entries are stored alike.
* `Records.mapEntries_staged` — entries are cut where they were put together.
* `build_of_shuffles` — builds of shuffled entries are the same.
-/

namespace RecordStore

/-! ## Shuffled entries -/

section

variable {α β : Type} {key? : α → Option Bytes} {entries entries' : List α}

/-- A permutation that keeps the order among entries of one key. -/
structure Shuffles (key? : α → Option Bytes) (entries entries' : List α) : Prop where
  perm : entries.Perm entries'
  stable : ∀ key, entries.filter (fun entry => key? entry = some key) =
    entries'.filter fun entry => key? entry = some key

theorem filter_kept_map {part? : α → Option (Bytes × β)}
    (hpart : ∀ entry part, part? entry = some part → key? entry = some part.1)
    (entries : List α) (key : Bytes) :
    (kept ((entries.filter fun entry => key? entry = some key).map part?)).filter
        (fun part => part.1 = key) =
      (kept (entries.map part?)).filter fun part => part.1 = key := by
  induction entries with
  | nil => rfl
  | cons entry entries ih =>
    rw [List.filter_cons]
    cases hp : part? entry with
    | none =>
      split <;> simpa [kept, hp] using ih
    | some part =>
      have hkey := hpart entry part hp
      by_cases hk : part.1 = key
      · simpa [kept, hp, hkey, hk] using ih
      · simpa [kept, hp, hkey, hk] using ih

/-- Shuffled entries are stored alike, and as many of them are missing. -/
theorem KeySpec.arranged_of_shuffles (keys : KeySpec) (part? : α → Option (Bytes × β))
    (hpart : ∀ entry part, part? entry = some part → key? entry = some part.1)
    (h : Shuffles key? entries entries') :
    keys.arranged (kept (entries.map part?)) = keys.arranged (kept (entries'.map part?)) ∧
      missing (entries.map part?) = missing (entries'.map part?) := by
  have hlatest : (latestEntries (kept (entries.map part?))).toList =
      (latestEntries (kept (entries'.map part?))).toList := by
    refine toList_latestEntries_congr fun key => ?_
    rw [← latest?_filter, ← filter_kept_map hpart, h.stable, filter_kept_map hpart,
      latest?_filter]
  refine ⟨?_, (h.perm.map part?).countP_eq _⟩
  rw [arranged, hlatest]
  rfl

end

/-! ## Entries as records -/

/-- The records of an entry: a key and perhaps a value in one, or each in one of its own. -/
inductive EntryText
  | single (record : Bytes)
  | double (key value : Bytes)
  deriving DecidableEq, Repr

namespace EntryText

def records : EntryText → List Bytes
  | single record => [record]
  | double key value => [key, value]

def keyRecord : EntryText → Bytes
  | single record => record
  | double key _ => key

def cut (keySep : Bytes) : EntryText → Records.Entry
  | single record => Records.cutAt keySep record
  | double key value => .cut key value

end EntryText

namespace Schema

/-- Whether an entry of a keyed schema has these records. They delimit cleanly under the separator
that they are split at. -/
def HasEntry : Schema → EntryText → Prop
  | set _ keys, .single record => Records.delimitsCleanly record keys.sep = true
  | map _ keys _ sep, .single record =>
    keys.sep ≠ sep ∧ Records.delimitsCleanly record sep = true
  | map _ keys _ sep, .double key value =>
    keys.sep = sep ∧ Records.delimitsCleanly key sep = true ∧
      Records.delimitsCleanly value sep = true
  | _, _ => False

def entryKey? : Schema → EntryText → Option Bytes
  | set _ keys, entry => keyBytes? keys entry.keyRecord
  | map _ keys _ _, entry =>
    match entry.cut keys.sep with
    | .cut key _ => keyBytes? keys key
    | .broken _ => none
  | _, _ => none

def recordSep : Schema → Bytes
  | set _ keys => keys.sep
  | map _ _ _ sep => sep
  | _ => []

/-- The text of entries, each record with the separator behind it. -/
def entriesText (s : Schema) (entries : List EntryText) : Bytes :=
  staged s.recordSep (entries.flatMap EntryText.records)

end Schema

/-! ## Entries are cut where they were put together -/

namespace Records

theorem alternate_double (keySep : Bytes) {entries : List EntryText}
    (h : ∀ entry ∈ entries, ∃ key value, entry = .double key value) :
    alternate (entries.flatMap EntryText.records) = entries.map (EntryText.cut keySep) := by
  induction entries with
  | nil => rfl
  | cons entry entries ih =>
    obtain ⟨⟨key, value, rfl⟩, hrest⟩ := List.forall_mem_cons.1 h
    exact congrArg (Entry.cut key value :: ·) (ih hrest)

theorem map_cutAt_single (keySep : Bytes) {entries : List EntryText}
    (h : ∀ entry ∈ entries, ∃ record, entry = .single record) :
    (entries.flatMap EntryText.records).map (cutAt keySep) =
      entries.map (EntryText.cut keySep) := by
  induction entries with
  | nil => rfl
  | cons entry entries ih =>
    obtain ⟨⟨record, rfl⟩, hrest⟩ := List.forall_mem_cons.1 h
    exact congrArg (cutAt keySep record :: ·) (ih hrest)

variable {label : Label} {keys : KeySpec} {value : Schema} {sep : Bytes}
  {entries : List EntryText}

/-- The records of entries are split where they were put together. -/
theorem split_entriesText {s : Schema} (hsep : s.recordSep ≠ [])
    (h : ∀ entry ∈ entries, s.HasEntry entry) :
    split s.recordSep (s.entriesText entries) = entries.flatMap EntryText.records := by
  refine split_staged hsep fun record hm => ?_
  obtain ⟨entry, he, hr⟩ := List.mem_flatMap.1 hm
  have hentry := h entry he
  cases s with
  | set label keys =>
    cases entry with
    | single text =>
      obtain rfl := List.mem_singleton.1 hr
      exact hentry
    | double key text => exact hentry.elim
  | map label keys value sep =>
    cases entry with
    | single text =>
      obtain rfl := List.mem_singleton.1 hr
      exact hentry.2
    | double key text =>
      rcases List.mem_pair.1 hr with rfl | rfl
      · exact hentry.2.1
      · exact hentry.2.2
  | _ => exact absurd rfl hsep

theorem flatMap_records_set (h : ∀ entry ∈ entries, (Schema.set label keys).HasEntry entry) :
    entries.flatMap EntryText.records = entries.map EntryText.keyRecord := by
  induction entries with
  | nil => rfl
  | cons entry entries ih =>
    obtain ⟨hentry, hrest⟩ := List.forall_mem_cons.1 h
    cases entry with
    | single record => exact congrArg (record :: ·) (ih hrest)
    | double key text => exact hentry.elim

/-- Entries of a map are cut where they were put together. -/
theorem mapEntries_entriesText (hsep : sep ≠ [])
    (h : ∀ entry ∈ entries, (Schema.map label keys value sep).HasEntry entry) :
    mapEntries keys.sep sep ((Schema.map label keys value sep).entriesText entries) =
      entries.map (EntryText.cut keys.sep) := by
  have hsplit := split_entriesText (s := .map label keys value sep) hsep h
  rw [Schema.recordSep] at hsplit
  rw [mapEntries, hsplit]
  by_cases he : keys.sep = sep
  · have hdouble : ∀ entry ∈ entries, ∃ key text, entry = .double key text := by
      intro entry hm
      have hentry := h entry hm
      cases entry with
      | single record => exact absurd he hentry.1
      | double key text => exact ⟨key, text, rfl⟩
    rw [← alternate_double keys.sep hdouble]
    cases entries with
    | nil => rfl
    | cons entry entries =>
      obtain ⟨key, text, rfl⟩ := hdouble entry List.mem_cons_self
      exact if_pos he
  · have hsingle : ∀ entry ∈ entries, ∃ record, entry = .single record := by
      intro entry hm
      have hentry := h entry hm
      cases entry with
      | single record => exact ⟨record, rfl⟩
      | double key text => exact absurd hentry.1 he
    rw [← map_cutAt_single keys.sep hsingle]
    rcases entries.flatMap EntryText.records with _ | ⟨record, _ | ⟨record', records⟩⟩
    · rfl
    · rfl
    · exact if_neg he

end Records

/-! ## Builds of shuffled entries -/

section

variable {entries entries' : List EntryText}

theorem KeySpec.entryKey?_of_key? {label : Label} {keys : KeySpec} {entry : EntryText}
    {part : Bytes × FlatValue} (h : keys.key? entry.keyRecord = some part) :
    (Schema.set label keys).entryKey? entry = some part.1 := by
  rw [Schema.entryKey?, keyBytes?_eq, h, Option.map_some]

theorem entryKey?_of_entryOf? {label : Label} {keys : KeySpec} {value : Schema} {sep : Bytes}
    {entry : EntryText} {part : Bytes × FlatValue × Bytes}
    (h : entryOf? keys value sep (entry.cut keys.sep) = some part) :
    (Schema.map label keys value sep).entryKey? entry = some part.1 := by
  rw [Schema.entryKey?]
  cases hcut : entry.cut keys.sep with
  | broken record =>
    rw [hcut] at h
    cases h
  | cut keyText valueText =>
    simp only [hcut, entryOf?, Option.bind_eq_bind, Option.bind_eq_some_iff, Prod.exists,
      Option.pure_def, Option.some.injEq] at h
    obtain ⟨bytes, key, hkey, text, -, rfl⟩ := h
    simp only [keyBytes?_eq, hkey, Option.map_some]

/-- Texts of shuffled entries have the same rows. -/
theorem Schema.outcome_of_shuffles {s : Schema} (hs : s.Separated)
    (h : ∀ entry ∈ entries, s.HasEntry entry) (hshuffles : Shuffles s.entryKey? entries entries') :
    s.outcome none [s.entriesText entries] = s.outcome none [s.entriesText entries'] := by
  have h' : ∀ entry ∈ entries', s.HasEntry entry := fun entry hm =>
    h entry (hshuffles.perm.mem_iff.2 hm)
  cases s with
  | set label keys =>
    have hparts {entries : List EntryText}
        (h : ∀ entry ∈ entries, (set label keys).HasEntry entry) :
        (Records.split keys.sep ((set label keys).entriesText entries)).map keys.key? =
          entries.map fun entry => keys.key? entry.keyRecord := by
      have hsplit := Records.split_entriesText (s := set label keys) hs.1 h
      rw [recordSep] at hsplit
      rw [hsplit, Records.flatMap_records_set h, List.map_map]
      rfl
    obtain ⟨hstored, hmissing⟩ := keys.arranged_of_shuffles
      (fun entry => keys.key? entry.keyRecord)
      (fun _ _ hp => keys.entryKey?_of_key? hp) hshuffles
    simp only [outcome, List.map_cons, List.map_nil, List.flatten_cons, List.flatten_nil,
      List.append_nil, hparts h, hparts h', hstored, hmissing]
  | map label keys value sep =>
    have hparts {entries : List EntryText}
        (h : ∀ entry ∈ entries, (map label keys value sep).HasEntry entry) :
        (Records.mapEntries keys.sep sep ((map label keys value sep).entriesText entries)).map
            (entryOf? keys value sep) =
          entries.map fun entry => entryOf? keys value sep (entry.cut keys.sep) := by
      rw [Records.mapEntries_entriesText hs.2.2.1 h, List.map_map]
      rfl
    obtain ⟨hstored, hmissing⟩ := keys.arranged_of_shuffles
      (fun entry => entryOf? keys value sep (entry.cut keys.sep))
      (fun _ _ hp => entryKey?_of_entryOf? hp) hshuffles
    simp only [outcome, List.map_cons, List.map_nil, List.flatten_cons, List.flatten_nil,
      List.append_nil, hparts h, hparts h', hstored, hmissing]
  | _ =>
    -- only keyed schemas have entries
    obtain rfl : entries = [] := List.eq_nil_iff_forall_not_mem.2 fun entry hm => h entry hm
    rw [hshuffles.perm.nil_eq]

end

/-- A build in memory of the entries of a keyed schema writes and says the same for any order of
the entries that keeps those of one key in their order. -/
theorem build_of_shuffles {format : String} {schema : Schema} (hp : parse format = .ok schema)
    {entries entries' : List EntryText} (he : ∀ entry ∈ entries, schema.HasEntry entry)
    (hs : Shuffles schema.entryKey? entries entries') :
    build .memory schema none (.ok (schema.entriesText entries)) =
      build .memory schema none (.ok (schema.entriesText entries')) := by
  have hn := numberedFrom_of_parse hp
  rw [build_eq_written (by simp) hn, build_eq_written (by simp) hn]
  exact congrArg schema.written (Schema.outcome_of_shuffles (separated_of_parse hp) he hs)

def shuffledSample : Schema :=
  .map ⟨0, "T(c)=(l);"⟩ ⟨⟨⟨1, "c"⟩, .primitive .char⟩, [0x3d], true, []⟩
    (.flat ⟨⟨2, "l"⟩, .primitive .i32⟩) [0x3b]

theorem parse_shuffledSample : parse "T(c)=(l);" = .ok shuffledSample := by decide +kernel

theorem shuffles_sample : Shuffles shuffledSample.entryKey?
    [.single (Bytes.ofText "b=2"), .single (Bytes.ofText "x"), .single (Bytes.ofText "a=1"),
      .single (Bytes.ofText "b=4")]
    [.single (Bytes.ofText "a=1"), .single (Bytes.ofText "b=2"), .single (Bytes.ofText "b=4"),
      .single (Bytes.ofText "x")] := by
  have hx : shuffledSample.entryKey? (.single (Bytes.ofText "x")) = none := by decide +kernel
  have ha : shuffledSample.entryKey? (.single (Bytes.ofText "a=1")) = some [0x61] := by
    decide +kernel
  have hb : shuffledSample.entryKey? (.single (Bytes.ofText "b=2")) = some [0x62] := by
    decide +kernel
  have hb' : shuffledSample.entryKey? (.single (Bytes.ofText "b=4")) = some [0x62] := by
    decide +kernel
  refine ⟨by decide, fun key => ?_⟩
  by_cases hkey : [0x61] = key
  · simp [hx, ha, hb, hb', ← hkey]
  · simp [List.filter_cons, hx, ha, hb, hb', hkey]

theorem build_shuffled_sample :
    build .memory shuffledSample none (.ok (Bytes.ofText "b=2;x;a=1;b=4;")) =
        build .memory shuffledSample none (.ok (Bytes.ofText "a=1;b=2;b=4;x;")) ∧
      (build .memory shuffledSample none (.ok (Bytes.ofText "b=2;x;a=1;b=4;"))).2 =
        .ok ⟨1, 1, 130⟩ := by
  refine ⟨?_, by decide +kernel⟩
  have hentries : ∀ entry ∈ ([.single (Bytes.ofText "b=2"), .single (Bytes.ofText "x"),
      .single (Bytes.ofText "a=1"), .single (Bytes.ofText "b=4")] : List EntryText),
      shuffledSample.HasEntry entry := by
    simp only [List.forall_mem_cons]
    exact ⟨⟨by decide, by decide⟩, ⟨by decide, by decide⟩, ⟨by decide, by decide⟩,
      ⟨by decide, by decide⟩, by simp⟩
  have hbuild := build_of_shuffles parse_shuffledSample hentries shuffles_sample
  exact hbuild

end RecordStore
