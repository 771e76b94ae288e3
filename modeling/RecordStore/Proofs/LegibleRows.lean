import RecordStore.Proofs.StagedTexts

/-!
# Rows of legible schemas

A level stages the text of each part that can be decoded. Since no text has the delimiter of its
level in it, the child gets these very texts, and decodes each of them again. So a text has one row
for each of its chunks that can be decoded, and this row is the value of the chunk; only the
entries of keyed values come in storage order instead of the order of the text, and NaNs below the
level become quiet. Nothing is skipped below a level, since all parts of the staged texts can be
decoded.

## Main definitions

* `Value.Similar` — values up to the order of entries.
* `Value.Agrees` — whether a row is a value up to NaNs besides.
* `Schema.ReadsAs` — whether chunks have rows, one for each that can be decoded.
* `Schema.Accounts` — whether the parts of the node are counted besides that cannot be decoded.

## Main statements

* `Schema.accountsParts_of_marked` — the rows of chunks behind an outer delimiter.
* `Schema.accounts_whole` — the row of a whole input.
-/

namespace RecordStore

/-! ## Rows and values -/

mutual

/-- Whether two values are equal up to the order of the entries of keyed values. -/
inductive Value.Similar : Value → Value → Prop
  | flat (value : FlatValue) : Value.Similar (.flat value) (.flat value)
  | seq {items items' : List Value} (h : List.Forall₂ Value.Similar items items') :
    Value.Similar (.seq items) (.seq items')
  | keyed {entries arranged entries' : List (Value × Option Value)}
    (h : List.Forall₂ EntrySimilar entries arranged) (hp : arranged.Perm entries') :
    Value.Similar (.keyed entries) (.keyed entries')
  | pair {left left' right right' : Value} (hleft : Value.Similar left left')
    (hright : Value.Similar right right') : Value.Similar (.pair left right) (.pair left' right')

inductive EntrySimilar : Value × Option Value → Value × Option Value → Prop
  | member (key : Value) : EntrySimilar (key, none) (key, none)
  | entry (key : Value) {item item' : Value} (h : Value.Similar item item') :
    EntrySimilar (key, some item) (key, some item')

end

/-- Whether a row is a value that was decoded, up to NaNs and the order of entries. Nothing is said
of values with NaNs in their keys, since two such keys may become one. -/
def Value.Agrees (row value : Value) : Prop := value.Settled → row.quiet.Similar value.quiet

def EntryAgrees (row entry : Value × Option Value) : Prop :=
  row.1 = entry.1 ∧ Option.Rel Value.Agrees row.2 entry.2

namespace Value

theorem agrees_flat (value : FlatValue) : (flat value).Agrees (flat value) :=
  fun _ => .flat value.quiet

theorem agrees_seq {rows items : List Value} (h : List.Forall₂ Agrees rows items) :
    (seq rows).Agrees (seq items) := by
  intro hsettled
  rw [settled_seq] at hsettled
  rw [quiet_seq, quiet_seq]
  refine .seq ?_
  induction h with
  | nil => exact .nil
  | cons h _ ih =>
    obtain ⟨hitem, hitems⟩ := List.forall_mem_cons.1 hsettled
    exact .cons (h hitem) (ih hitems)

theorem agrees_pair {left right left' right' : Value} (hleft : left.Agrees left')
    (hright : right.Agrees right') : (pair left right).Agrees (pair left' right') := by
  intro hsettled
  obtain ⟨hleft', hright'⟩ := settled_pair.1 hsettled
  exact .pair (hleft hleft') (hright hright')

/-- A row that agrees with what the text of a value is decoded to agrees with the value. -/
theorem Agrees.of_text {s : Schema} {row value again : Value} {text : Bytes}
    (h : row.Agrees again) (ht : s.TextOf value text) (hd : decode s text = .ok again) :
    row.Agrees value := by
  intro hsettled
  obtain ⟨chunk, -, ht⟩ := ht
  obtain rfl := Except.ok.inj (hd.symm.trans (ht.decode_eq hsettled))
  obtain ⟨hsettled, hquiet⟩ := hsettled.quiet
  have := h hsettled
  rwa [hquiet] at this

end Value

theorem forall₂_entrySimilar {rows entries : List (Value × Option Value)}
    (h : List.Forall₂ EntryAgrees rows entries)
    (hs : ∀ entry ∈ entries, ∀ item, entry.2 = some item → item.Settled) :
    List.Forall₂ EntrySimilar (rows.map fun row => (row.1.quiet, row.2.map Value.quiet))
      (entries.map fun entry => (entry.1.quiet, entry.2.map Value.quiet)) := by
  induction h with
  | nil => exact .nil
  | @cons row entry rows entries h _ ih =>
    obtain ⟨hentry, hentries⟩ := List.forall_mem_cons.1 hs
    refine .cons ?_ (ih hentries)
    obtain ⟨key, item⟩ := row
    obtain ⟨key', item'⟩ := entry
    obtain ⟨rfl, hitems⟩ : key = key' ∧ Option.Rel Value.Agrees item item' := h
    cases hitems with
    | none => exact .member _
    | some hitem => exact .entry _ (hitem (hentry _ rfl))

/-- A row whose entries come in storage order agrees with the value whose entries come in the order
of the text. -/
theorem agrees_gatherEntries {α : Type} (keys : KeySpec) {entries : List (Bytes × α)}
    {rows : List (Value × Option Value)} (read : α → Value × Option Value)
    (h : List.Forall₂ EntryAgrees rows ((keys.arranged entries).map fun entry => read entry.2)) :
    (Value.keyed rows).Agrees
      (gatherEntries (entries.map fun entry => (entry.1, read entry.2))) := by
  obtain ⟨gathered, hgathered, hfrom⟩ :=
    exists_gatheredFrom (entries.map fun entry => (entry.1, read entry.2))
  have harranged : ((keys.arranged entries).map fun entry => read entry.2).Perm
      (gathered.map (·.2)) := by
    have hstored := StorageOrder.arrange_perm keys.ordered (·.1) (latestEntries entries).toList
    have hperm := hfrom.perm_toList
    rw [toList_latestEntries_map] at hperm
    refine (hstored.map _).trans ?_
    have := (hperm.map (·.2)).symm
    rwa [List.map_map] at this
  rw [hgathered]
  intro hsettled
  rw [Value.settled_keyed] at hsettled
  rw [Value.quiet_keyed, Value.quiet_keyed]
  exact .keyed (forall₂_entrySimilar h fun entry hm => hsettled.2 entry (harranged.subset hm))
    (harranged.map _)

namespace Schema

/-- Whether chunks have rows, one for each that can be decoded, which agrees with its value. -/
def ReadsAs (s : Schema) (outer : Option Bytes) (chunks : List Bytes) : Prop :=
  ∃ rows skipped, s.rows? outer chunks = some (rows, skipped) ∧
    List.Forall₂ Value.Agrees rows (s.accepted chunks)

def ReadsParts (s : Schema) (d : UInt8) : Prop :=
  ∀ chunks : List Bytes, (∀ chunk ∈ chunks, d ∉ chunk) → s.ReadsAs (some [d]) chunks

/-- Whether chunks are read so, and as many parts are skipped as the node has that cannot be
decoded, none below it. -/
def Accounts (s : Schema) (outer : Option Bytes) (chunks : List Bytes) : Prop :=
  ∃ rows, s.rows? outer chunks = some (rows, (chunks.map s.malformed).sum) ∧
    List.Forall₂ Value.Agrees rows (s.accepted chunks)

def AccountsParts (s : Schema) (d : UInt8) : Prop :=
  ∀ chunks : List Bytes, (∀ chunk ∈ chunks, d ∉ chunk) → s.Accounts (some [d]) chunks

variable {s : Schema} {d : UInt8}

theorem Accounts.readsAs {outer : Option Bytes} {chunks : List Bytes}
    (h : s.Accounts outer chunks) : s.ReadsAs outer chunks := by
  obtain ⟨rows, hrows, hagree⟩ := h
  exact ⟨rows, _, hrows, hagree⟩

theorem accounts_singleton {outer : Option Bytes} {chunk : Bytes} :
    s.Accounts outer [chunk] ↔ ∃ rows, s.rows? outer [chunk] = some (rows, s.malformed chunk) ∧
      List.Forall₂ Value.Agrees rows (s.accepted [chunk]) := by
  rw [Accounts, List.map_singleton, List.sum_singleton]

/-- Chunks have rows for their values if each has a row for its value. -/
theorem accountsParts_of_forall (hs : s.Separated)
    (h : ∀ chunk : Bytes, d ∉ chunk → s.Accounts (some [d]) [chunk]) : s.AccountsParts d := by
  intro chunks hfree
  induction chunks with
  | nil => exact ⟨[], rows?_nil hs (List.cons_ne_nil _ _), .nil⟩
  | cons chunk chunks ih =>
    obtain ⟨hchunk, hfree⟩ := List.forall_mem_cons.1 hfree
    obtain ⟨rows, hrows, hagree⟩ := accounts_singleton.1 (h chunk hchunk)
    obtain ⟨rows', hrows', hagree'⟩ := ih hfree
    refine ⟨rows ++ rows', ?_, ?_⟩
    · have happend := rows?_append hs (List.cons_ne_nil d []) [chunk] chunks
      rwa [hrows, hrows', bothRows_some] at happend
    · rw [← List.singleton_append, accepted, List.filterMap_append]
      exact List.rel_append hagree hagree'

/-- The text of a value has a row if it is read as its parts are, and nothing of it is skipped. -/
theorem Accounts.of_text {value : Value} {text : Bytes} {outer : Option Bytes}
    (ht : s.TextOf value text) (h : s.Accounts outer [text]) :
    ∃ row, s.rows? outer [text] = some ([row], 0) ∧ row.Agrees value := by
  obtain ⟨again, hd⟩ := ht.readable
  obtain ⟨rows, hrows, hagree⟩ := h
  rw [accepted_singleton hd] at hagree
  obtain ⟨row, _, hrow, hnil, rfl⟩ := List.forall₂_cons_right_iff.1 hagree
  obtain rfl := List.forall₂_nil_right_iff.1 hnil
  rw [sum_malformed_texts (by simpa using ⟨value, ht⟩)] at hrows
  exact ⟨row, hrows, hrow.of_text ht hd⟩

/-! ## Flat nodes -/

theorem agrees_refl_of_flat {values : List FlatValue} :
    List.Forall₂ Value.Agrees (values.map .flat) (values.map .flat) := by
  rw [List.forall₂_same]
  intro row hm
  obtain ⟨value, -, rfl⟩ := List.mem_map.1 hm
  exact Value.agrees_flat value

theorem accounts_flat (node : FlatNode) (delim chunk : Bytes) :
    (flat node).Accounts (some delim) [chunk] := by
  refine accounts_singleton.2 ⟨_, by rw [rows?_of_flat, FlatNode.rows_eq, malformed_flat], ?_⟩
  rw [accepted_flat]
  exact agrees_refl_of_flat

/-! ## Sequences -/

/-- Rows that agree with what the texts of parts are decoded to agree with the parts. -/
theorem agrees_of_staged (hs : s.Marked Layout.Legible) (hd : MarkOutside [d] s.separators)
    {pieces : List Bytes} (hfree : ∀ piece ∈ pieces, d ∉ piece) {items : List Value}
    (h : List.Forall₂ Value.Agrees items (s.accepted (kept (pieces.map (restage? s [d]))))) :
    List.Forall₂ Value.Agrees items (s.accepted pieces) := by
  induction pieces generalizing items with
  | nil => simpa [kept, accepted] using h
  | cons piece pieces ih =>
    obtain ⟨hpiece, hfree⟩ := List.forall_mem_cons.1 hfree
    rcases restage?_cases hs hd hpiece with ⟨text, value, ht, -, hv, htext⟩ | ⟨ht, hv⟩
    · have hkept : kept ((piece :: pieces).map (restage? s [d])) =
          text :: kept (pieces.map (restage? s [d])) := by simp [kept, ht]
      obtain ⟨again, hagain⟩ := htext.readable
      rw [hkept, accepted_cons_of_ok hagain] at h
      obtain ⟨item, rest, hitem, hrest, rfl⟩ := List.forall₂_cons_right_iff.1 h
      rw [accepted_cons_of_ok hv]
      exact .cons (hitem.of_text htext hagain) (ih hfree hrest)
    · have hkept : kept ((piece :: pieces).map (restage? s [d])) =
          kept (pieces.map (restage? s [d])) := by simp [kept, ht]
      rw [hkept] at h
      rw [accepted_cons_of_none hv]
      exact ih hfree h

theorem accounts_sequence {label : Label} {element : Schema} {sep : Bytes} {args : List String}
    (hsep : MarkOutside sep element.separators) (hs : element.Marked Layout.Legible)
    (helement : ∀ q, MarkOutside [q] element.separators → element.AccountsParts q)
    (outer : Option Bytes) (chunk : Bytes) :
    (sequence label element sep args).Accounts outer [chunk] := by
  obtain ⟨q, -, rfl, -⟩ := id hsep
  have hpieces : ∀ piece ∈ Records.split [q] chunk, q ∉ piece :=
    fun piece hm => (Records.mem_split_singleton hm).1
  have hmissing : missing ((Records.split [q] chunk).map (restage? element [q])) =
      (sequence label element [q] args).malformed chunk :=
    missing_congr fun piece hm => restage?_eq_none_iff hs hsep (hpieces piece hm)
  have htexts := fun text => @textOf_of_mem_staged element q hs hsep _ hpieces text
  have hagree := fun items => @agrees_of_staged element q hs hsep _ hpieces items
  generalize htext : kept ((Records.split [q] chunk).map (restage? element [q])) = texts
    at htexts hagree
  obtain ⟨items, hrows, hitems⟩ := helement q hsep texts fun text hm => (htexts text hm).1
  rw [sum_malformed_texts fun text hm => (htexts text hm).2] at hrows
  have hlength : texts.length = items.length := by
    rw [hitems.length_eq, length_accepted]
    intro text hm
    obtain ⟨-, value, htext⟩ := htexts text hm
    exact htext.readable
  refine accounts_singleton.2 ⟨[.seq items], ?_, ?_⟩
  · rw [rows?_sequence (List.cons_ne_nil _ _)]
    simp [htext, hrows, hlength, hmissing]
  · rw [accepted_singleton (by rw [decode])]
    exact .cons (Value.agrees_seq (hagree items hitems)) .nil

/-! ## Sets -/

theorem accounts_set (label : Label) (keys : KeySpec) (outer : Option Bytes) (chunk : Bytes) :
    (set label keys).Accounts outer [chunk] := by
  refine accounts_singleton.2 ⟨_, by simp [rows?_of_set, malformed]; rfl, ?_⟩
  rw [accepted_singleton (decode_set label keys chunk)]
  refine .cons ?_ .nil
  have hmembers : (Records.split keys.sep chunk).filterMap keys.member? =
      (kept ((Records.split keys.sep chunk).map keys.key?)).map fun entry =>
        (entry.1, (Value.flat entry.2, none)) := by
    rw [kept, List.filterMap_map, List.map_filterMap]
    rfl
  rw [hmembers]
  refine agrees_gatherEntries keys (fun key => (Value.flat key, none)) ?_
  rw [List.forall₂_map_left_iff, List.forall₂_map_right_iff, List.forall₂_same]
  exact fun entry _ => ⟨rfl, .none⟩

/-! ## Maps -/

def stagedItem? (keys : KeySpec) (value : Schema) (sep : Bytes) :
    Records.Entry → Option (Bytes × FlatValue × Bytes × Value)
  | .cut keyText valueText => do
    let (bytes, key) ← keys.key? keyText
    return (bytes, key, ← restage? value sep valueText, ← (decode value valueText).toOption)
  | .broken _ => none

variable {keys : KeySpec} {value : Schema} {r : UInt8}

/-- An entry that is decoded is staged, and no other is staged. -/
theorem stagedItem?_spec {q : UInt8} (hs : value.Marked Layout.Legible)
    (hd : MarkOutside [r] value.separators) {chunk : Bytes} {record : Records.Entry}
    (hm : record ∈ Records.mapEntries [q] [r] chunk) :
    entryOf? keys value [r] record = (stagedItem? keys value [r] record).map
        (fun entry => (entry.1, entry.2.1, entry.2.2.1)) ∧
      keys.association? value record = (stagedItem? keys value [r] record).map
        (fun entry => (entry.1, .flat entry.2.1, some entry.2.2.2)) ∧
      ∀ entry ∈ stagedItem? keys value [r] record,
        r ∉ entry.2.2.1 ∧ value.TextOf entry.2.2.2 entry.2.2.1 := by
  cases record with
  | broken => simp [KeySpec.association?, entryOf?, stagedItem?]
  | cut keyText valueText =>
    obtain ⟨-, hfree, -⟩ := Records.mem_mapEntries_singleton hm
    simp only [KeySpec.association?, entryOf?, stagedItem?]
    cases keys.key? keyText with
    | none => simp
    | some key =>
      rcases restage?_cases hs hd hfree with ⟨text, item, ht, hclean, hv, htext⟩ | ⟨ht, hv⟩
      · simp [ht, hv, hclean, htext, Except.toOption]
      · simp [ht, hv]

/-- The entries of a chunk with the texts that are staged and the values that are decoded. -/
theorem staged_entries {q : UInt8} (hs : value.Marked Layout.Legible)
    (hd : MarkOutside [r] value.separators) (chunk : Bytes) :
    ∃ entries : List (Bytes × FlatValue × Bytes × Value),
      kept ((Records.mapEntries [q] [r] chunk).map (entryOf? keys value [r])) =
        entries.map (fun entry => (entry.1, entry.2.1, entry.2.2.1)) ∧
      (Records.mapEntries [q] [r] chunk).filterMap (keys.association? value) =
        entries.map (fun entry => (entry.1, .flat entry.2.1, some entry.2.2.2)) ∧
      ∀ entry ∈ entries, r ∉ entry.2.2.1 ∧ value.TextOf entry.2.2.2 entry.2.2.1 := by
  have hspec := fun record hm => @stagedItem?_spec keys value r q hs hd chunk record hm
  refine ⟨kept ((Records.mapEntries [q] [r] chunk).map (stagedItem? keys value [r])), ?_, ?_, ?_⟩
  · rw [← kept_map, List.map_map]
    exact congrArg kept (List.map_congr_left fun record hm => (hspec record hm).1)
  · rw [kept, List.filterMap_map, List.map_filterMap]
    exact List.filterMap_congr fun record hm => (hspec record hm).2.1
  · intro entry hm
    obtain ⟨record, hrecord, hentry⟩ := List.mem_map.1 (mem_kept.1 hm)
    exact (hspec record hrecord).2.2 entry hentry

theorem agrees_mapRow {entries : List (Bytes × FlatValue × Bytes × Value)} {items : List Value}
    (ht : ∀ entry ∈ entries, value.TextOf entry.2.2.2 entry.2.2.1)
    (h : List.Forall₂ Value.Agrees items (value.accepted (entries.map (·.2.2.1)))) :
    List.Forall₂ EntryAgrees
      (List.zipWith (fun entry item => (.flat entry.2.1, some item)) entries items)
      (entries.map fun entry => (.flat entry.2.1, some entry.2.2.2)) := by
  induction entries generalizing items with
  | nil => simp
  | cons entry entries ih =>
    obtain ⟨htext, ht⟩ := List.forall_mem_cons.1 ht
    obtain ⟨again, hagain⟩ := htext.readable
    rw [List.map_cons, accepted_cons_of_ok hagain] at h
    obtain ⟨item, items, hitem, hitems, rfl⟩ := List.forall₂_cons_right_iff.1 h
    exact .cons ⟨rfl, .some (hitem.of_text htext hagain)⟩ (ih ht hitems)

theorem accounts_map {label : Label} {sep : Bytes} {q : UInt8} (hkeys : keys.sep = [q])
    (hsep : MarkOutside sep value.separators) (hs : value.Marked Layout.Legible)
    (hvalue : ∀ r, MarkOutside [r] value.separators → value.AccountsParts r)
    (outer : Option Bytes) (chunk : Bytes) :
    (map label keys value sep).Accounts outer [chunk] := by
  obtain ⟨r, -, rfl, -⟩ := id hsep
  have hmissing : missing ((Records.mapEntries [q] [r] chunk).map (entryOf? keys value [r])) =
      (map label keys value [r]).malformed chunk := by
    rw [malformed, hkeys]
    refine missing_congr fun record hm => ?_
    obtain ⟨hstaged, hdecoded, -⟩ := @stagedItem?_spec keys value r q hs hsep chunk record hm
    rw [hstaged, hdecoded, Option.map_eq_none_iff, Option.map_eq_none_iff]
  obtain ⟨entries, hstaged, hdecoded, htexts⟩ := @staged_entries keys value r q hs hsep chunk
  have harranged := keys.arranged_map
    (fun parts : FlatValue × Bytes × Value => (parts.1, parts.2.1)) entries
  have htexts : ∀ entry ∈ keys.arranged entries,
      r ∉ entry.2.2.1 ∧ value.TextOf entry.2.2.2 entry.2.2.1 :=
    fun entry hm => htexts entry (KeySpec.mem_of_mem_arranged hm)
  obtain ⟨items, hrows, hagree⟩ :=
    hvalue r hsep ((keys.arranged entries).map (·.2.2.1)) (by
      rw [List.forall_mem_map]
      exact fun entry hm => (htexts entry hm).1)
  rw [sum_malformed_texts (by
    rw [List.forall_mem_map]
    exact fun entry hm => ⟨_, (htexts entry hm).2⟩)] at hrows
  have hlength : (keys.arranged entries).length = items.length := by
    rw [hagree.length_eq, length_accepted, List.length_map]
    rw [List.forall_mem_map]
    exact fun entry hm => (htexts entry hm).2.readable
  refine accounts_singleton.2
    ⟨[mapRow ((keys.arranged entries).map fun entry => (entry.1, entry.2.1, entry.2.2.1)) items],
      ?_, ?_⟩
  · rw [rows?_map (List.cons_ne_nil _ _), hkeys, ← hmissing]
    simp [hstaged, harranged, Function.comp_def, hrows, hlength]
  · rw [accepted_singleton (decode_map label keys value [r] chunk), hkeys, hdecoded]
    refine .cons (agrees_gatherEntries keys
      (fun parts : FlatValue × Bytes × Value => (.flat parts.1, some parts.2.2)) ?_) .nil
    rw [List.zipWith_map_left]
    exact agrees_mapRow (fun entry hm => (htexts entry hm).2) hagree

/-! ## Pairs -/

/-- The rows of a pair, whose second side is read up to the outer delimiter. -/
theorem accounts_pair {label : Label} {first second : Schema} {sep chunk : Bytes}
    {outer : Option Bytes} (hsep : MarkOutside sep first.separators)
    (hs₁ : first.Marked Layout.Legible) (hs₂ : second.Marked Layout.Legible)
    (hseparated₁ : first.Separated) (hseparated₂ : second.Separated)
    (houter : second.OuterFree outer chunk)
    (hfirst : ∀ q, MarkOutside [q] first.separators → first.AccountsParts q)
    (hsecond : ∀ text value, second.TextOf value text → second.OuterFree outer text →
      second.Accounts outer [text]) :
    (pair label first second sep).Accounts outer [chunk] := by
  obtain ⟨q, -, rfl, -⟩ := id hsep
  rw [accounts_singleton, malformed]
  rcases @restagePair?_cases label first second [q] chunk outer hsep hs₁ hs₂ houter with
    ⟨a, b, left, right, hsides, hv, hleft, ha, hright, hb⟩ | ⟨hsides, hv⟩
  · have ha := ha q rfl
    obtain ⟨leftRow, hlefts, hagree⟩ :=
      Accounts.of_text hleft (hfirst q hsep [a] (by simpa using ha))
    obtain ⟨rightRow, hrights, hagree'⟩ := Accounts.of_text hright (hsecond b right hright hb)
    refine ⟨[.pair leftRow rightRow], ?_, ?_⟩
    · rw [rows?_pair_of_some hsides ha hb hlefts hrights, hv]
      rfl
    · rw [accepted_singleton hv]
      exact .cons (Value.agrees_pair hagree hagree') .nil
  · refine ⟨[], ?_, ?_⟩
    · rw [rows?_pair_of_none (List.cons_ne_nil _ _) hsides hseparated₁ hseparated₂ houter.ne_nil,
        hv]
      rfl
    · rw [accepted_cons_of_none hv]
      exact .nil

/-! ## All nodes -/

/-- Chunks that are free of the outer delimiter have rows for the values that they are decoded to,
and what they have besides is counted. -/
theorem accountsParts_of_marked (hs : s.Separated) (hm : s.Marked Layout.Legible)
    (hd : MarkOutside [d] s.separators) : s.AccountsParts d := by
  induction s generalizing d with
  | flat node => exact accountsParts_of_forall hs fun chunk _ => accounts_flat node _ chunk
  | sequence label element sep args ih =>
    exact accountsParts_of_forall hs fun chunk _ =>
      accounts_sequence hm.1 hm.2 (fun q hq => ih hs.2 hm.2 hq) _ chunk
  | set label keys =>
    exact accountsParts_of_forall hs fun chunk _ => accounts_set label keys _ chunk
  | map label keys value sep ih =>
    obtain ⟨⟨⟨q, -, hkeys, -⟩, -⟩, hsep, hm⟩ := hm
    exact accountsParts_of_forall hs fun chunk _ =>
      accounts_map hkeys hsep hm (fun r hr => ih hs.2.2.2 hm hr) _ chunk
  | pair label first second sep ih₁ ih₂ =>
    obtain ⟨hsep, hm₁, hm₂⟩ := hm
    obtain ⟨-, hs₁, hs₂⟩ := id hs
    have hd₂ : MarkOutside [d] second.separators := by
      rw [markOutside_singleton, separators_pair] at hd
      rw [markOutside_singleton]
      grind
    apply accountsParts_of_forall hs
    intro chunk hfree
    refine accounts_pair hsep hm₁ hm₂ hs₁ hs₂ (outerFree_some hd₂ hfree)
      (fun q hq => ih₁ hs₁ hm₁ hq) ?_
    exact fun text value _ houter => ih₂ hs₂ hm₂ hd₂ [text] (by simpa using houter.not_mem)

theorem readsParts_of_marked (hs : s.Separated) (hm : s.Marked Layout.Legible)
    (hd : MarkOutside [d] s.separators) : s.ReadsParts d :=
  fun chunks hfree => (accountsParts_of_marked hs hm hd chunks hfree).readsAs

/-- Whether a node takes the values of an input as long as they follow each other, if there is no
delimiter. -/
def isStreamed : Schema → Bool
  | flat ⟨_, .primitive _⟩ | flat ⟨_, .struct _⟩ => true
  | _ => false

theorem rows_structs {node : FlatNode} {shape : Shape} (hl : node.layout = .structs shape)
    (chunks : List Bytes) :
    node.rows none chunks =
      ((kept (node.decoded chunks)).map .flat, missing (node.decoded chunks)) := by
  unfold FlatNode.rows
  split <;> simp_all

theorem rows_streamed {node : FlatNode} (hl : ∀ shape, node.layout ≠ .structs shape)
    (chunk : Bytes) :
    node.rows none [chunk] = ((node.streamed (.start chunk)).map .flat, 0) := by
  cases h : node.layout with
  | structs shape => exact absurd h (hl shape)
  | primitive prim => simp [FlatNode.rows, h]
  | struct shape => simp [FlatNode.rows, h]

theorem isStreamed_flat {node : FlatNode} (hl : ∀ shape, node.layout ≠ .structs shape) :
    (flat node).isStreamed = true := by
  obtain ⟨label, layout⟩ := node
  cases layout with
  | structs shape => exact absurd rfl (hl shape)
  | primitive prim => rfl
  | struct shape => rfl

theorem accounts_flat_whole {node : FlatNode} (hm : (flat node).Marked Layout.Legible)
    {chunk : Bytes}
    (h : (flat node).isStreamed = false ∨ ∃ value, (flat node).TextOf value chunk) :
    (flat node).Accounts none [chunk] := by
  obtain ⟨hn, hl⟩ := hm
  rw [accounts_singleton]
  by_cases hstructs : ∃ shape, node.layout = .structs shape
  · obtain ⟨shape, hshape⟩ := hstructs
    refine ⟨_, by rw [rows?_of_flat, rows_structs hshape, malformed_flat], ?_⟩
    rw [accepted_flat]
    exact agrees_refl_of_flat
  · have hstream : ∀ shape, node.layout ≠ .structs shape := fun shape he => hstructs ⟨shape, he⟩
    obtain ⟨value, source, hv, ht⟩ := h.resolve_left (by simp [isStreamed_flat hstream])
    obtain ⟨value, hd, rfl⟩ := map_eq_ok.1 hv
    have hform := FlatNode.holds_of_decode hd
    obtain rfl := Except.ok.inj ((FlatNode.encode_eq hform).symm.trans ht.encode_eq)
    refine ⟨[.flat value.quiet], ?_, ?_⟩
    · rw [rows?_of_flat, rows_streamed hstream, FlatNode.streamed_text hstream hn hl hform,
        List.map_singleton, ht.complete]
    · rw [accepted_singleton (ht.decode_eq (.flat value))]
      exact .cons (Value.agrees_flat _) .nil

/-- A whole input has a row for the value that it is decoded to, and what it has besides in the root
is counted. -/
theorem accounts_whole (hs : s.Separated) (hm : s.Marked Layout.Legible) {chunk : Bytes}
    (h : s.isStreamed = false ∨ ∃ value, s.TextOf value chunk) : s.Accounts none [chunk] := by
  induction s generalizing chunk with
  | flat node => exact accounts_flat_whole hm h
  | sequence label element sep args =>
    exact accounts_sequence hm.1 hm.2 (fun q hq => accountsParts_of_marked hs.2 hm.2 hq) _ chunk
  | set label keys => exact accounts_set label keys _ chunk
  | map label keys value sep =>
    obtain ⟨⟨⟨q, -, hkeys, -⟩, -⟩, hsep, hm⟩ := hm
    exact accounts_map hkeys hsep hm (fun r hr => accountsParts_of_marked hs.2.2.2 hm hr) _ chunk
  | pair label first second sep ih₁ ih₂ =>
    obtain ⟨hsep, hm₁, hm₂⟩ := hm
    obtain ⟨-, hs₁, hs₂⟩ := hs
    refine accounts_pair hsep hm₁ hm₂ hs₁ hs₂ (fun _ hd => by cases hd)
      (fun q hq => accountsParts_of_marked hs₁ hm₁ hq) ?_
    exact fun text value ht _ => ih₂ hs₂ hm₂ (.inr ⟨value, ht⟩)

theorem readsAs_whole (hs : s.Separated) (hm : s.Marked Layout.Legible) {chunk : Bytes}
    (h : s.isStreamed = false ∨ ∃ value, s.TextOf value chunk) : s.ReadsAs none [chunk] :=
  (accounts_whole hs hm h).readsAs

/-- The chunks of an input have rows for the values that they are decoded to. -/
theorem readsAs_splitOptional (hs : s.Separated) (hm : s.Marked Layout.Legible)
    {outer : Option Bytes}
    (houter : (∃ delim, outer = some delim ∧ MarkOutside delim s.separators) ∨
      (outer = none ∧ s.isStreamed = false))
    (input : Bytes) : s.ReadsAs outer (Records.splitOptional outer input) := by
  rcases houter with ⟨delim, rfl, hd⟩ | ⟨rfl, hstreamed⟩
  · obtain ⟨d, -, rfl, -⟩ := id hd
    exact readsParts_of_marked hs hm hd _ fun chunk hc => (Records.mem_split_singleton hc).1
  · exact readsAs_whole hs hm (.inl hstreamed)

end Schema

end RecordStore
