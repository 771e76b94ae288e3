import Mathlib.Data.List.SplitLengths
import RecordStore.Build
import RecordStore.Proofs.CleanRecords
import RecordStore.Proofs.LatestEntries
import RecordStore.Proofs.StoredRows

/-!
# The rows of a text

What a build makes of its input depends on neither areas nor output: chunks of text give the rows
of a node, and the rows of a child come from the texts that its parent stages for it. A build stops
at a level whose child does not give a row for each of these texts.

## Main definitions

* `FlatNode.rows` — the rows of a flat node.
* `Halt` — where a build stops, and what it has written until then.
* `Schema.outcome` — the rows of any node and how many parts are skipped on the way, or where the
  build stops.
* `Schema.rows?` — the rows alone.

## Main statements

* `Schema.holds_of_rows?` — the rows of a text are rows of its schema.
-/

namespace RecordStore

/-! ## Flat nodes -/

namespace FlatNode

def streamed (node : FlatNode) (c : Cursor) : List FlatValue :=
  if _hn : node.layout.isHollow then []
  else
    match _h : node.decodeNext c with
    | .error _ _ => []
    | .ok value c' => value :: node.streamed c'
termination_by c.rest.length
decreasing_by exact length_rest_decodeNext_lt (by simpa using _hn) _h

def decoded (node : FlatNode) (chunks : List Bytes) : List (Option FlatValue) :=
  chunks.map fun chunk => (node.decode chunk).toOption

/-- The rows of a flat node, and how many chunks are skipped. -/
def rows (node : FlatNode) (outer : Option Bytes) (chunks : List Bytes) : List Value × Nat :=
  match node.layout, outer with
  | .primitive _, none | .struct _, none =>
    (chunks.flatMap fun chunk => (node.streamed (.start chunk)).map .flat, 0)
  | _, _ => ((kept (node.decoded chunks)).map .flat, missing (node.decoded chunks))

end FlatNode

/-! ## Containers -/

/-- The entries of an instance in storage order, the last one of each key. -/
def KeySpec.arranged {α : Type} (keys : KeySpec) (entries : List (Bytes × α)) :
    List (Bytes × α) :=
  StorageOrder.arrange keys.ordered (·.1) (latestEntries entries).toList

def KeySpec.key? (keys : KeySpec) (text : Bytes) : Option (Bytes × FlatValue) :=
  (keys.decodeKey text).toOption

def entryOf? (keys : KeySpec) (value : Schema) (sep : Bytes) :
    Records.Entry → Option (Bytes × FlatValue × Bytes)
  | .cut keyText valueText => do
    let (bytes, key) ← keys.key? keyText
    return (bytes, key, ← restage? value sep valueText)
  | .broken _ => none

def setRow (entries : List (Bytes × FlatValue)) : Value :=
  .keyed (entries.map fun entry => (.flat entry.2, none))

/-- The row of a map whose payloads have been built. -/
def mapRow (entries : List (Bytes × FlatValue × Bytes)) (items : List Value) : Value :=
  .keyed (List.zipWith (fun entry item => (.flat entry.2.1, some item)) entries items)

/-- What a build that stops has written, and the node that gives fewer or more instances than
texts are staged for it. -/
structure Halt where
  output : Bytes
  ordinal : Nat
  expected : Nat
  actual : Nat
  deriving DecidableEq, Repr

namespace Halt

def behind (front : Bytes) (h : Halt) : Halt := { h with output := front ++ h.output }

def error (h : Halt) : BuildError := .instanceMismatch h.ordinal h.expected h.actual

end Halt

/-- The rows of a child that is built behind what its parent has written. There must be one for
each staged text. -/
def childRows (front : Bytes) (child : Schema) (expected : Nat) :
    Except Halt (List Value × Nat) → Except Halt (List Value × Nat)
  | .ok (items, skipped) =>
    if expected = items.length then .ok (items, skipped)
    else .error ⟨front ++ child.sections items, child.ordinal, expected, items.length⟩
  | .error halt => .error (halt.behind front)

namespace Schema

/-- The rows of the chunks of a text and how many parts are skipped over all levels, or where the
build of the text stops. -/
def outcome : Schema → (outer : Option Bytes) → (chunks : List Bytes) →
    Except Halt (List Value × Nat)
  | flat node, outer, chunks => .ok (node.rows outer chunks)
  | sequence label element sep args, _, chunks => do
    let instances := chunks.map fun chunk => (Records.split sep chunk).map (restage? element sep)
    let texts := instances.map kept
    let front := Section.write .shape label.ordinal args
      (Section.shapeBody (texts.map List.length))
    let (items, skipped) ← childRows front element texts.flatten.length
      (element.outcome (some sep) (Records.split sep (staged sep texts.flatten)))
    return (((texts.map List.length).splitLengths items).map .seq,
      missing instances.flatten + skipped)
  | set _ keys, _, chunks =>
    let instances := chunks.map fun chunk => (Records.split keys.sep chunk).map keys.key?
    .ok (instances.map fun parts => setRow (keys.arranged (kept parts)),
      missing instances.flatten)
  | map label keys value sep, _, chunks => do
    let instances := chunks.map fun chunk =>
      (Records.mapEntries keys.sep sep chunk).map (entryOf? keys value sep)
    let stored := instances.map fun parts => keys.arranged (kept parts)
    let texts := stored.flatten.map (·.2.2)
    let front := Section.write (Container.keyedTag keys) label.ordinal keys.args
      (StoredKeys.body ⟨false, keys.ordered, stored.map (List.map (·.1))⟩)
    let (items, skipped) ← childRows front value texts.length
      (value.outcome (some sep) (Records.split sep (staged sep texts)))
    return (List.zipWith mapRow stored ((stored.map List.length).splitLengths items),
      missing instances.flatten + skipped)
  | pair label first second sep, outer, chunks => do
    let sides := chunks.map (restagePair? first second sep outer)
    let pairs := kept sides
    let front := Section.write .pair label.ordinal [] (Section.pairBody pairs.length)
    let (lefts, skipped) ← childRows front first pairs.length
      (first.outcome (some sep) (Records.split sep (staged sep (pairs.map (·.1)))))
    let delim := if outer.isNone && pairs.isEmpty then some sep else outer
    let (rights, skipped') ← childRows (front ++ first.sections lefts) second pairs.length
      (second.outcome delim
        (Records.splitOptional delim (staged (outer.getD []) (pairs.map (·.2)))))
    return (List.zipWith .pair lefts rights, missing sides + skipped + skipped')

def rows? (s : Schema) (outer : Option Bytes) (chunks : List Bytes) :
    Option (List Value × Nat) :=
  (s.outcome outer chunks).toOption

theorem toOption_bind_childRows (front : Bytes) (child : Schema) (expected : Nat)
    (rows : Except Halt (List Value × Nat))
    (next : List Value × Nat → Except Halt (List Value × Nat)) :
    (childRows front child expected rows >>= next).toOption =
      rows.toOption.bind fun result =>
        if expected = result.1.length then (next result).toOption else none := by
  cases rows with
  | error halt => rfl
  | ok result =>
    obtain ⟨items, skipped⟩ := result
    simp only [childRows, Except.toOption, Option.bind_some]
    by_cases h : expected = items.length
    · rw [if_pos h, if_pos h, ok_bind]
    · rw [if_neg h, if_neg h, error_bind]

theorem rows?_of_flat (node : FlatNode) (outer : Option Bytes) (chunks : List Bytes) :
    (flat node).rows? outer chunks = some (node.rows outer chunks) := rfl

theorem rows?_of_sequence (label : Label) (element : Schema) (sep : Bytes) (args : List String)
    (outer : Option Bytes) (chunks : List Bytes) :
    (sequence label element sep args).rows? outer chunks =
      let instances := chunks.map fun chunk =>
        (Records.split sep chunk).map (restage? element sep)
      let texts := instances.map kept
      (element.rows? (some sep) (Records.split sep (staged sep texts.flatten))).bind
        fun (items, skipped) =>
          if texts.flatten.length = items.length then
            some (((texts.map List.length).splitLengths items).map .seq,
              missing instances.flatten + skipped)
          else none := by
  rw [rows?, outcome, toOption_bind_childRows]
  rfl

theorem rows?_of_set (label : Label) (keys : KeySpec) (outer : Option Bytes)
    (chunks : List Bytes) :
    (set label keys).rows? outer chunks =
      let instances := chunks.map fun chunk => (Records.split keys.sep chunk).map keys.key?
      some (instances.map fun parts => setRow (keys.arranged (kept parts)),
        missing instances.flatten) := rfl

theorem rows?_of_map (label : Label) (keys : KeySpec) (value : Schema) (sep : Bytes)
    (outer : Option Bytes) (chunks : List Bytes) :
    (map label keys value sep).rows? outer chunks =
      let instances := chunks.map fun chunk =>
        (Records.mapEntries keys.sep sep chunk).map (entryOf? keys value sep)
      let stored := instances.map fun parts => keys.arranged (kept parts)
      let texts := stored.flatten.map (·.2.2)
      (value.rows? (some sep) (Records.split sep (staged sep texts))).bind
        fun (items, skipped) =>
          if texts.length = items.length then
            some (List.zipWith mapRow stored ((stored.map List.length).splitLengths items),
              missing instances.flatten + skipped)
          else none := by
  rw [rows?, outcome, toOption_bind_childRows]
  rfl

theorem rows?_of_pair (label : Label) (first second : Schema) (sep : Bytes)
    (outer : Option Bytes) (chunks : List Bytes) :
    (pair label first second sep).rows? outer chunks =
      let sides := chunks.map (restagePair? first second sep outer)
      let pairs := kept sides
      (first.rows? (some sep) (Records.split sep (staged sep (pairs.map (·.1))))).bind
        fun (lefts, skipped) =>
          if pairs.length = lefts.length then
            let delim := if outer.isNone && pairs.isEmpty then some sep else outer
            (second.rows? delim
              (Records.splitOptional delim (staged (outer.getD []) (pairs.map (·.2))))).bind
                fun (rights, skipped') =>
                  if pairs.length = rights.length then
                    some (List.zipWith .pair lefts rights, missing sides + skipped + skipped')
                  else none
          else none := by
  rw [rows?, outcome, toOption_bind_childRows]
  simp only [toOption_bind_childRows]
  rfl

end Schema

/-! ## Rows have the form of their schema -/

theorem FlatNode.holds_streamed {node : FlatNode} {c : Cursor} :
    ∀ value ∈ node.streamed c, node.layout.Holds value := by
  fun_induction streamed node c with
  | case1 => simp
  | case2 => simp
  | case3 c hn value c' h ih =>
    intro value' hv
    rcases List.mem_cons.1 hv with rfl | hv
    · exact holds_of_decodeNext h
    · exact ih value' hv

theorem mem_kept {α : Type} {parts : List (Option α)} {a : α} :
    a ∈ kept parts ↔ some a ∈ parts := by
  simp [kept]

theorem kept_map {α β : Type} (f : α → β) (parts : List (Option α)) :
    kept (parts.map (Option.map f)) = (kept parts).map f := by
  induction parts with
  | nil => rfl
  | cons part parts ih => cases part <;> simp_all [kept]

theorem missing_map {α β : Type} (f : α → β) (parts : List (Option α)) :
    missing (parts.map (Option.map f)) = missing parts := by
  rw [missing, missing, List.countP_map]
  exact List.countP_congr fun part _ => by cases part <;> simp

theorem missing_mono {α β γ : Type} {parts : List α} {f : α → Option β} {g : α → Option γ}
    (h : ∀ part ∈ parts, f part = none → g part = none) :
    missing (parts.map f) ≤ missing (parts.map g) := by
  rw [missing, missing, List.countP_map, List.countP_map]
  apply List.countP_mono_left
  intro part hm hf
  simpa using h part hm (by simpa using hf)

theorem missing_congr {α β γ : Type} {parts : List α} {f : α → Option β} {g : α → Option γ}
    (h : ∀ part ∈ parts, f part = none ↔ g part = none) :
    missing (parts.map f) = missing (parts.map g) :=
  Nat.le_antisymm (missing_mono fun part hm => (h part hm).1)
    (missing_mono fun part hm => (h part hm).2)

theorem missing_eq_sum {α β : Type} (f : α → Option β) (parts : List α) :
    missing (parts.map f) = (parts.map fun part => if (f part).isSome then 0 else 1).sum := by
  induction parts with
  | nil => rfl
  | cons part parts ih =>
    rw [List.map_cons, List.map_cons, List.sum_cons, ← ih]
    cases f part <;> simp [missing, Nat.add_comm]

theorem missing_append {α : Type} (parts more : List (Option α)) :
    missing (parts ++ more) = missing parts + missing more :=
  List.countP_append

theorem kept_append {α : Type} (parts more : List (Option α)) :
    kept (parts ++ more) = kept parts ++ kept more :=
  List.filterMap_append

theorem length_kept_le {α : Type} (parts : List (Option α)) : (kept parts).length ≤ parts.length :=
  List.length_filterMap_le _ _

theorem FlatNode.holds_rows (node : FlatNode) (outer : Option Bytes) (chunks : List Bytes) :
    ∀ row ∈ (node.rows outer chunks).1, (Schema.flat node).Holds row := by
  have hstream : ∀ row ∈ chunks.flatMap fun chunk => (node.streamed (.start chunk)).map .flat,
      (Schema.flat node).Holds row := by
    intro row hm
    obtain ⟨chunk, -, hm⟩ := List.mem_flatMap.1 hm
    obtain ⟨value, hv, rfl⟩ := List.mem_map.1 hm
    exact holds_streamed value hv
  have hdecode : ∀ row ∈ (kept (node.decoded chunks)).map Value.flat,
      (Schema.flat node).Holds row := by
    intro row hm
    obtain ⟨value, hv, rfl⟩ := List.mem_map.1 hm
    obtain ⟨chunk, -, hd⟩ := List.mem_map.1 (mem_kept.1 hv)
    exact holds_of_decode (toOption_eq_some.1 hd)
  unfold rows
  split
  · exact hstream
  · exact hstream
  · exact hdecode

/-- A key is there if it can be decoded, since a decoded key can be written. -/
theorem KeySpec.key?_eq (keys : KeySpec) (text : Bytes) :
    keys.key? text = (keys.node.decode text).toOption.map fun key => (key.stored, key) := by
  rw [key?, decodeKey]
  cases h : keys.node.decode text with
  | error => rfl
  | ok key =>
    rw [ok_bind, FlatNode.write_eq (FlatNode.holds_of_decode h)]
    rfl

theorem KeySpec.key?_eq_some {keys : KeySpec} {text bytes : Bytes} {key : FlatValue}
    (h : keys.key? text = some (bytes, key)) :
    keys.node.layout.Holds key ∧ bytes = key.stored := by
  rw [key?_eq, Option.map_eq_some_iff] at h
  obtain ⟨key, hd, ⟨⟩⟩ := h
  exact ⟨FlatNode.holds_of_decode (toOption_eq_some.1 hd), rfl⟩

theorem key_of_entryOf? {keys : KeySpec} {value : Schema} {sep : Bytes}
    {record : Records.Entry} {entry : Bytes × FlatValue × Bytes}
    (h : entryOf? keys value sep record = some entry) :
    keys.node.layout.Holds entry.2.1 ∧ entry.1 = entry.2.1.stored := by
  cases record with
  | broken => cases h
  | cut keyText valueText =>
    simp only [entryOf?, Option.bind_eq_bind, Option.bind_eq_some_iff, Prod.exists,
      Option.pure_def, Option.some.injEq] at h
    obtain ⟨bytes, key, hkey, text, -, rfl⟩ := h
    exact KeySpec.key?_eq_some hkey

theorem KeySpec.mem_of_mem_arranged {α : Type} {keys : KeySpec} {entries : List (Bytes × α)}
    {entry : Bytes × α} (h : entry ∈ keys.arranged entries) : entry ∈ entries :=
  mem_of_latest? (mem_toList_latestEntries.1 (StorageOrder.mem_arrange.1 h))

theorem KeySpec.arranged_map {α β : Type} (keys : KeySpec) (f : α → β)
    (entries : List (Bytes × α)) :
    keys.arranged (entries.map fun entry => (entry.1, f entry.2)) =
      (keys.arranged entries).map fun entry => (entry.1, f entry.2) := by
  rw [arranged, toList_latestEntries_map, StorageOrder.arrange_map]
  rfl

theorem KeySpec.map_fst_arranged {α β : Type} (keys : KeySpec) (f : α → β)
    (entries : List (Bytes × α)) :
    (keys.arranged (entries.map fun entry => (entry.1, f entry.2))).map (·.1) =
      (keys.arranged entries).map (·.1) := by
  rw [arranged_map, List.map_map]
  rfl

/-- Arranged entries whose bytes are those of their keys are the entries of a row. -/
theorem KeySpec.holds_arranged {α : Type} {keys : KeySpec} {entries : List (Bytes × α)}
    {row : List (Value × Option Value)} (key : α → FlatValue)
    (hk : ∀ entry ∈ entries, keys.node.layout.Holds (key entry.2) ∧ entry.1 = (key entry.2).stored)
    (hr : row.map (·.1) = (keys.arranged entries).map fun entry => .flat (key entry.2)) :
    keys.Holds row := by
  constructor
  · intro entry he
    have : entry.1 ∈ row.map (·.1) := List.mem_map_of_mem he
    rw [hr] at this
    obtain ⟨arranged, ha, hkey⟩ := List.mem_map.1 this
    exact ⟨key arranged.2, hkey.symm, (hk _ (mem_of_mem_arranged ha)).1⟩
  · refine ⟨(latestEntries entries).toList.map (·.1),
      List.pairwise_map.2 (pairwise_toList_latestEntries entries), ?_⟩
    rw [StorageOrder.arrange_map]
    have : row.map (·.1.stored) = (row.map (·.1)).map Value.stored := by simp
    rw [this, hr, List.map_map]
    exact List.map_congr_left fun entry he => (hk _ (mem_of_mem_arranged he)).2.symm

/-- Groups of given lengths are made of the items, and have these lengths. -/
theorem getElem_splitLengths {α : Type} {lengths : List Nat} {items : List α}
    (h : lengths.sum = items.length) {i : Nat} (hi : i < lengths.length)
    (hg : i < (lengths.splitLengths items).length) :
    (lengths.splitLengths items)[i].length = lengths[i] ∧
      ∀ item ∈ (lengths.splitLengths items)[i], item ∈ items := by
  refine ⟨List.length_splitLengths_getElem_eq _ _ hi (by
    have := List.sum_take_add_sum_drop lengths (i + 1)
    omega), fun item hm => ?_⟩
  rw [← List.flatten_splitLengths items lengths h.ge]
  exact List.mem_flatten_of_mem (List.getElem_mem hg) hm

theorem holds_setRow {label : Label} {keys : KeySpec} {entries : List (Bytes × FlatValue)}
    (hk : ∀ entry ∈ entries, keys.node.layout.Holds entry.2 ∧ entry.1 = entry.2.stored) :
    (Schema.set label keys).Holds (setRow (keys.arranged entries)) := by
  refine ⟨KeySpec.holds_arranged id hk (by simp), ?_⟩
  intro entry he
  obtain ⟨_, -, rfl⟩ := List.mem_map.1 he
  rfl

theorem holds_mapRow {label : Label} {keys : KeySpec} {value : Schema} {sep : Bytes}
    {entries : List (Bytes × FlatValue × Bytes)} {items : List Value}
    (hk : ∀ entry ∈ entries, keys.node.layout.Holds entry.2.1 ∧ entry.1 = entry.2.1.stored)
    (hl : items.length = (keys.arranged entries).length) (hi : ∀ item ∈ items, value.Holds item) :
    (Schema.map label keys value sep).Holds (mapRow (keys.arranged entries) items) := by
  refine ⟨KeySpec.holds_arranged (fun parts : FlatValue × Bytes => parts.1) hk ?_,
    fun entry he => ?_⟩
  · rw [List.map_zipWith]
    exact List.ext_getElem (by simp [hl]) fun j _ _ => by simp
  · obtain ⟨j, hj, rfl⟩ := List.mem_iff_getElem.1 he
    rw [List.length_zipWith] at hj
    exact ⟨items[j], by simp, hi _ (List.getElem_mem _)⟩

namespace Schema

/-- The rows of a text are rows of its schema. -/
theorem holds_of_rows? {s : Schema} {outer : Option Bytes} {chunks : List Bytes}
    {rows : List Value} {skipped : Nat} (h : s.rows? outer chunks = some (rows, skipped)) :
    ∀ row ∈ rows, s.Holds row := by
  induction s generalizing outer chunks rows skipped with
  | flat node =>
    rw [rows?_of_flat, Option.some.injEq] at h
    have := node.holds_rows outer chunks
    rwa [h] at this
  | sequence label element sep args ih =>
    simp only [rows?_of_sequence, Option.bind_eq_some_iff, Prod.exists,
      Option.ite_none_right_eq_some, Option.some.injEq, Prod.mk.injEq] at h
    obtain ⟨items, skipped, hrows, hlen, rfl, -⟩ := h
    intro row hm
    obtain ⟨group, hg, rfl⟩ := List.mem_map.1 hm
    obtain ⟨i, hi, rfl⟩ := List.mem_iff_getElem.1 hg
    rw [List.length_flatten] at hlen
    exact fun item hitem =>
      ih hrows item ((getElem_splitLengths hlen (by simpa using hi) hi).2 item hitem)
  | set label keys =>
    rw [rows?_of_set, Option.some.injEq, Prod.mk.injEq] at h
    obtain ⟨rfl, -⟩ := h
    intro row hm
    obtain ⟨parts, hp, rfl⟩ := List.mem_map.1 hm
    obtain ⟨chunk, -, rfl⟩ := List.mem_map.1 hp
    apply holds_setRow
    intro entry he
    obtain ⟨text, -, hkey⟩ := List.mem_map.1 (mem_kept.1 he)
    exact KeySpec.key?_eq_some hkey
  | map label keys value sep ih =>
    simp only [rows?_of_map, Option.bind_eq_some_iff, Prod.exists,
      Option.ite_none_right_eq_some, Option.some.injEq, Prod.mk.injEq] at h
    obtain ⟨items, skipped, hrows, hlen, rfl, -⟩ := h
    intro row hm
    obtain ⟨i, hi, rfl⟩ := List.mem_iff_getElem.1 hm
    rw [List.length_map, List.length_flatten] at hlen
    simp only [List.length_zipWith, List.length_map, List.length_splitLengths,
      Nat.min_self] at hi
    obtain ⟨hgroup, hitems⟩ := getElem_splitLengths hlen (i := i) (by simpa using hi)
      (by simpa using hi)
    rw [List.getElem_zipWith, List.getElem_map, List.getElem_map]
    refine holds_mapRow (fun entry he => ?_) (by simpa using hgroup)
      fun item hitem => ih hrows item (hitems item hitem)
    obtain ⟨record, -, hrecord⟩ := List.mem_map.1 (mem_kept.1 he)
    exact key_of_entryOf? hrecord
  | pair label first second sep ih₁ ih₂ =>
    simp only [rows?_of_pair, Option.bind_eq_some_iff, Prod.exists,
      Option.ite_none_right_eq_some, Option.some.injEq, Prod.mk.injEq] at h
    obtain ⟨lefts, skipped, hlefts, hlen, rights, skipped', hrights, hlen', rfl, -⟩ := h
    intro row hm
    obtain ⟨i, hi, rfl⟩ := List.mem_iff_getElem.1 hm
    rw [List.getElem_zipWith]
    exact ⟨ih₁ hlefts _ (List.getElem_mem _), ih₂ hrights _ (List.getElem_mem _)⟩

end Schema

end RecordStore
