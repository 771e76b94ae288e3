import RecordStore.Proofs.Bodies
import RecordStore.Proofs.StorageOrder

/-!
# Sound views

A view whose tables passed the checks of opening answers every access. Nothing else is asked of
it: the keys of a keyed view may stand in any order and in any bucket.

## Main definitions

* `OffsetTable` — a table that passed its check.
* `Checked.Serves` — an access gives something for the indices below a count, and faults for none.
* `FlatView.Sound`, `RaggedView.Sound`, `ShapeView.Sound`, `KeyedView.Sound` — what opening checks.
* `FlatView.Answers`, `RaggedView.Answers`, `ShapeView.Answers`, `KeyedView.Answers` — every access
  gives what it should.

## Main statements

* `OffsetTable.exists_entry` — neighbouring entries are there and in order.
* `KeyedInstance.search_found` — a search gives an entry of its window with the key, or nothing.
* `KeyedView.Sound.answers` — the instances of a sound view answer for all keys.
-/

namespace RecordStore

/-! ## Offset tables -/

theorem pairwise_of_isMonotone {numbers : List Nat} (h : isMonotone numbers = true) :
    numbers.Pairwise (· ≤ ·) := by
  fun_induction isMonotone numbers with
  | case1 a b rest ih =>
    rw [Bool.and_eq_true, decide_eq_true_eq] at h
    have hrest := ih h.2
    refine List.pairwise_cons.2 ⟨fun c hc => ?_, hrest⟩
    rcases List.mem_cons.1 hc with rfl | hc
    · exact h.1
    · exact h.1.trans (List.rel_of_pairwise_cons hrest hc)
  | case2 numbers h' =>
    match numbers with
    | [] => exact .nil
    | [a] => exact List.pairwise_singleton _ a
    | a :: b :: rest => exact absurd rfl (h' a b rest)

/-- A table that has one number more than there are items, and passed the check of offsets. -/
structure OffsetTable (table : Array Nat) (items total : Nat) : Prop where
  size : table.size = items + 1
  check : isOffsetTable table.toList total = true

namespace OffsetTable

variable {table : Array Nat} {items total i : Nat}

theorem le_total (h : OffsetTable table items total) (hi : i < table.size) :
    table[i] ≤ total := by
  obtain ⟨hsize, hcheck⟩ := h
  simp only [isOffsetTable, Bool.and_eq_true, decide_eq_true_eq] at hcheck
  obtain ⟨⟨-, hmono⟩, hlast⟩ := hcheck
  have hpairs := List.pairwise_iff_getElem.1 (pairwise_of_isMonotone hmono)
  rw [List.getLast?_eq_getElem?, Array.length_toList, hsize, Nat.add_sub_cancel,
    List.getElem?_eq_some_iff] at hlast
  obtain ⟨hlt, hlast⟩ := hlast
  rcases Nat.lt_or_ge i items with hlt' | hge
  · have := hpairs i items (by simpa using hi) hlt hlt'
    rwa [hlast, Array.getElem_toList] at this
  · obtain rfl : i = items := by omega
    rw [Array.getElem_toList] at hlast
    exact hlast.le

theorem exists_entry (h : OffsetTable table items total) (hi : i < items) :
    ∃ a b, Checked.entry table i = .ok a ∧ Checked.entry table (i + 1) = .ok b ∧
      a ≤ b ∧ b ≤ total := by
  have hsize := h.size
  have hlt : i < table.size := by omega
  have hlt' : i + 1 < table.size := by omega
  refine ⟨table[i], table[i + 1], ?_, ?_, ?_, h.le_total hlt'⟩
  · simp [Checked.entry, hlt]
  · simp [Checked.entry, hlt']
  · have hcheck := h.check
    simp only [isOffsetTable, Bool.and_eq_true] at hcheck
    have hpairs := List.pairwise_iff_getElem.1 (pairwise_of_isMonotone hcheck.1.2)
    have hle := hpairs i (i + 1) (by simpa using hlt) (by simpa using hlt') (Nat.lt_succ_self i)
    rwa [Array.getElem_toList, Array.getElem_toList] at hle

end OffsetTable

theorem Checked.exists_slice {bytes : Array UInt8} {start stop : Nat} (hs : start ≤ stop)
    (hl : stop ≤ bytes.size) :
    ∃ slice, Checked.slice bytes start stop = .ok slice ∧ slice.length = stop - start := by
  refine ⟨_, if_pos ⟨hs, hl⟩, ?_⟩
  simp only [Array.length_toList, Array.size_extract]
  omega

/-- An access that never faults: it gives something with a property for the indices below a count,
and nothing for the others. -/
def Checked.Serves {α : Type} (access : Nat → Checked (Option α)) (count : Nat) (P : α → Prop) :
    Prop :=
  ∀ i, if i < count then ∃ a, access i = .ok (some a) ∧ P a else access i = .ok none

theorem Checked.Serves.exists_eq {α : Type} {access : Nat → Checked (Option α)} {count : Nat}
    {P : α → Prop} (h : Serves access count P) (i : Nat) :
    ∃ found, access i = .ok found ∧ ∀ a ∈ found, P a := by
  have hi := h i
  split at hi
  · obtain ⟨a, ha, hp⟩ := hi
    exact ⟨some a, ha, fun b hb => Option.some.inj hb ▸ hp⟩
  · exact ⟨none, hi, by simp⟩

/-! ## Flat, ragged and shape views -/

structure FlatView.Sound (v : FlatView) : Prop where
  fits : v.count * v.width < wordLimit
  size : v.data.size = v.count * v.width

/-- Every value is there and has the width; there are no others. -/
def FlatView.Answers (v : FlatView) : Prop :=
  Checked.Serves v.get v.count fun bytes => bytes.length = v.width

theorem FlatView.Sound.answers {v : FlatView} (h : v.Sound) : v.Answers := by
  intro i
  split
  next hi =>
    have hle : i * v.width + v.width ≤ v.count * v.width := by
      rw [← Nat.succ_mul]
      exact Nat.mul_le_mul_right _ hi
    have hfits := h.fits
    obtain ⟨bytes, hslice, hlength⟩ :=
      Checked.exists_slice (Nat.le_add_right (i * v.width) v.width) (hle.trans h.size.ge)
    refine ⟨bytes, ?_, by omega⟩
    simp only [FlatView.get, if_neg (Nat.not_le.2 hi), Checked.mul, Checked.add,
      if_pos (show i * v.width < wordLimit by omega), ok_bind,
      if_pos (show i * v.width + v.width < wordLimit by omega), slice?, hslice]
    rfl
  next hi =>
    simp only [FlatView.get, if_pos (Nat.not_lt.1 hi)]
    rfl

structure RaggedView.Sound (v : RaggedView) (elements : Nat) : Prop where
  offsets : OffsetTable v.offsets v.instances elements
  fits : elements * v.width < wordLimit
  size : v.data.size = elements * v.width

def RaggedView.Answers (v : RaggedView) : Prop :=
  Checked.Serves v.get v.instances fun bytes => v.width ∣ bytes.length

theorem RaggedView.Sound.answers {v : RaggedView} {elements : Nat} (h : v.Sound elements) :
    v.Answers := by
  intro i
  split
  next hi =>
    obtain ⟨a, b, ha, hb, hab, hle⟩ := h.offsets.exists_entry hi
    have hstart : a * v.width ≤ b * v.width := Nat.mul_le_mul_right _ hab
    have hstop : b * v.width ≤ elements * v.width := Nat.mul_le_mul_right _ hle
    have hfits := h.fits
    obtain ⟨bytes, hslice, hlength⟩ := Checked.exists_slice hstart (hstop.trans h.size.ge)
    refine ⟨bytes, ?_, ?_⟩
    · simp only [RaggedView.get, if_neg (Nat.not_le.2 hi), ha, hb, ok_bind, Checked.mul,
        if_pos (show a * v.width < wordLimit by omega),
        if_pos (show b * v.width < wordLimit by omega), slice?, hslice]
      rfl
    · simp only [hlength, ← Nat.sub_mul]
      exact Nat.dvd_mul_left _ _
  next hi =>
    simp only [RaggedView.get, if_pos (Nat.not_lt.1 hi)]
    rfl

def ShapeView.Sound (v : ShapeView) : Prop := OffsetTable v.offsets v.instances v.total

def ShapeView.Answers (v : ShapeView) : Prop :=
  Checked.Serves v.range v.instances fun range => range.1 ≤ range.2 ∧ range.2 ≤ v.total

theorem ShapeView.Sound.answers {v : ShapeView} (h : v.Sound) : v.Answers := by
  intro i
  split
  next hi =>
    obtain ⟨a, b, ha, hb, hab, hle⟩ := OffsetTable.exists_entry h hi
    refine ⟨(a, b), ?_, hab, hle⟩
    simp only [ShapeView.range, if_neg (Nat.not_le.2 hi), ha, hb]
    rfl
  next hi =>
    simp only [ShapeView.range, if_pos (Nat.not_lt.1 hi)]
    rfl

/-! ## Keyed views -/

/-- The bucket table of an instance with so many keys: a number of buckets, and offsets of them. -/
structure HashTables.Covers (tables : HashTables) (first last keys : Nat) : Prop where
  ordered : first < last
  fits : last ≤ tables.table.size
  buckets : 0 < last - first - 1
  offsets : OffsetTable (tables.table.extract first last) (last - first - 1) keys

structure HashTables.Sound (tables : HashTables) (entryStarts : Array Nat) (instances : Nat) :
    Prop where
  fits : tables.table.size < wordLimit
  index : OffsetTable tables.index instances tables.table.size
  covers : ∀ i < instances, ∀ first last start stop,
    Checked.entry tables.index i = .ok first → Checked.entry tables.index (i + 1) = .ok last →
    Checked.entry entryStarts i = .ok start → Checked.entry entryStarts (i + 1) = .ok stop →
    tables.Covers first last (stop - start)

structure KeyedView.Sound (v : KeyedView) : Prop where
  fits : v.total < wordLimit
  entries : OffsetTable v.entryStarts v.instances v.total
  keys : OffsetTable v.keyOffsets v.total v.keys.size
  hash : ∀ tables ∈ v.hash, tables.Sound v.entryStarts v.instances

/-- An instance answers for all keys: what it gives is one of its entries, and has the key. -/
structure KeyedInstance.Answers (k : KeyedInstance) : Prop where
  bounds : k.start ≤ k.stop ∧ k.stop ≤ k.view.total
  length : k.length = .ok (k.stop - k.start)
  get : ∀ key, ∃ slotted, k.get key = .ok slotted ∧ ∀ slot ∈ slotted,
    ∃ entry, k.start ≤ entry ∧ entry < k.stop ∧ k.view.key entry = .ok key ∧
      slot = k.view.slotted entry
  entries : ∃ entries, k.entries = .ok entries ∧ List.Forall₂
    (fun entry listed => k.view.key entry = .ok listed.1 ∧ listed.2 = k.view.slotted entry)
    (List.range' k.start (k.stop - k.start)) entries

def KeyedView.Answers (v : KeyedView) : Prop :=
  Checked.Serves v.instance? v.instances fun keyed => keyed.view = v ∧ keyed.Answers

theorem KeyedView.Sound.exists_key {v : KeyedView} (h : v.Sound) {entry : Nat}
    (he : entry < v.total) : ∃ key, v.key entry = .ok key := by
  obtain ⟨a, b, ha, hb, hab, hle⟩ := h.keys.exists_entry he
  obtain ⟨key, hslice, -⟩ := Checked.exists_slice hab hle
  exact ⟨key, by simp only [KeyedView.key, ha, hb, ok_bind, hslice]⟩

/-- A search among entries of a sound view gives one of them that has the key, or nothing. -/
theorem KeyedInstance.search_found {v : KeyedView} (h : v.Sound) (key : Bytes) (low high : Nat)
    (hb : high ≤ v.total) :
    ∃ slotted, search v key low high = .ok slotted ∧ ∀ slot ∈ slotted,
      ∃ entry, low ≤ entry ∧ entry < high ∧ v.key entry = .ok key ∧ slot = v.slotted entry := by
  fun_induction search v key low high with
  | case1 low high hlt middle fault hkey =>
    obtain ⟨found, hfound⟩ := h.exists_key (show middle < v.total by omega)
    rw [hkey] at hfound
    cases hfound
  | case2 low high hlt middle found hkey hc ih =>
    obtain ⟨slotted, hs, hin⟩ := ih hb
    refine ⟨slotted, hs, fun slot hm => ?_⟩
    obtain ⟨entry, hle, hlt, he⟩ := hin slot hm
    exact ⟨entry, by omega, hlt, he⟩
  | case3 low high hlt middle found hkey hc ih =>
    obtain ⟨slotted, hs, hin⟩ := ih (by omega)
    refine ⟨slotted, hs, fun slot hm => ?_⟩
    obtain ⟨entry, hle, hlt, he⟩ := hin slot hm
    exact ⟨entry, hle, by omega, he⟩
  | case4 low high hlt middle found hkey hc =>
    obtain rfl : found = key := Std.LawfulEqOrd.eq_of_compare hc
    refine ⟨_, rfl, fun slot hm => ⟨middle, by omega, by omega, hkey, ?_⟩⟩
    exact (Option.some.inj hm).symm
  | case5 low high hlt => exact ⟨none, rfl, by simp⟩

/-- The entries among which a key is looked for are entries of the instance. -/
theorem KeyedInstance.exists_bounds {tables : HashTables} {first last keys : Nat}
    (hc : tables.Covers first last keys) (ht : tables.table.size < wordLimit) {k : KeyedInstance}
    (hk : k.buckets = some (first, last, tables)) (hl : k.start + keys < wordLimit)
    (key : Bytes) :
    ∃ low high, k.bounds key = .ok (low, high) ∧ k.start ≤ low ∧ high ≤ k.start + keys := by
  obtain ⟨hlt, hfits, hpos, htable⟩ := hc
  have hbucket := Bucket.ofKey_lt key hpos
  obtain ⟨a, b, ha, hb, hab, hle⟩ := htable.exists_entry hbucket
  -- an entry of the part is one of the whole table
  have entry (j : Nat) (hj : j < last - first) :
      Checked.entry (tables.table.extract first last) j =
        Checked.entry tables.table (first + j) := by
    have hsize : (tables.table.extract first last)[j]? = tables.table[first + j]? := by
      rw [Array.getElem?_extract, if_pos (by omega)]
    rw [Checked.entry, Checked.entry, hsize]
  rw [entry _ (by omega)] at ha hb
  refine ⟨k.start + a, k.start + b, ?_, Nat.le_add_right _ _, by omega⟩
  simp only [KeyedInstance.bounds, hk, Checked.sub, if_pos hlt.le, ok_bind,
    if_pos (show 1 ≤ last - first by omega), Checked.add,
    if_pos (show first + Bucket.ofKey key (last - first - 1) < wordLimit by omega), ha,
    Nat.add_assoc first, hb, if_pos (show k.start + a < wordLimit by omega),
    if_pos (show k.start + b < wordLimit by omega)]
  rfl

theorem KeyedInstance.answers_of_bounds {k : KeyedInstance} (hv : k.view.Sound)
    (hs : k.start ≤ k.stop) (ht : k.stop ≤ k.view.total)
    (hb : ∀ key, ∃ low high, k.bounds key = .ok (low, high) ∧ k.start ≤ low ∧ high ≤ k.stop) :
    k.Answers where
  bounds := ⟨hs, ht⟩
  length := if_pos hs
  get := by
    intro key
    obtain ⟨low, high, hbounds, hlow, hhigh⟩ := hb key
    obtain ⟨slotted, hfound, hin⟩ := search_found hv key low high (hhigh.trans ht)
    refine ⟨slotted, by simp only [KeyedInstance.get, hbounds, ok_bind, hfound], ?_⟩
    intro slot hm
    obtain ⟨entry, hle, hlt, he⟩ := hin slot hm
    exact ⟨entry, hlow.trans hle, hlt.trans_le hhigh, he⟩
  entries := by
    have hkeys : ∀ entry ∈ List.range' k.start (k.stop - k.start), ∃ listed : Bytes × Slotted,
        k.view.key entry = .ok listed.1 ∧ listed.2 = k.view.slotted entry := by
      intro entry he
      rw [List.mem_range'_1] at he
      obtain ⟨key, hkey⟩ := hv.exists_key (show entry < k.view.total by omega)
      exact ⟨(key, k.view.slotted entry), hkey, rfl⟩
    obtain ⟨entries, hentries⟩ := exists_forall₂ hkeys
    refine ⟨entries, mapM_eq_ok_iff.2 (hentries.imp ?_), hentries⟩
    rintro entry ⟨key, slotted⟩ ⟨hkey, rfl⟩
    simp only [hkey, ok_bind, pure_eq_ok]

/-- The instances of a sound view answer for all keys. -/
theorem KeyedView.Sound.answers {v : KeyedView} (h : v.Sound) : v.Answers := by
  intro i
  split
  next hi =>
    obtain ⟨start, stop, hstart, hstop, hle, htotal⟩ := h.entries.exists_entry hi
    have hfits := h.fits
    cases hh : v.hash with
    | none =>
      refine ⟨⟨v, start, stop, none⟩, ?_, rfl, KeyedInstance.answers_of_bounds h hle htotal ?_⟩
      · simp only [KeyedView.instance?, if_neg (Nat.not_le.2 hi), hh, hstart, hstop]
        rfl
      · exact fun key => ⟨start, stop, rfl, le_rfl, le_rfl⟩
    | some tables =>
      have htables := h.hash tables hh
      obtain ⟨first, last, hfirst, hlast, -, -⟩ := htables.index.exists_entry hi
      have hcovers := htables.covers i hi first last start stop hfirst hlast hstart hstop
      refine ⟨⟨v, start, stop, some (first, last, tables)⟩, ?_, rfl,
        KeyedInstance.answers_of_bounds h hle htotal fun key => ?_⟩
      · simp only [KeyedView.instance?, if_neg (Nat.not_le.2 hi), hh, hstart, hstop]
        simp [hfirst, hlast]
      · obtain ⟨low, high, hbounds, hlow, hhigh⟩ :=
          KeyedInstance.exists_bounds (k := ⟨v, start, stop, some (first, last, tables)⟩) hcovers
            htables.fits rfl (show start + (stop - start) < wordLimit by omega) key
        exact ⟨low, high, hbounds, hlow, hhigh.trans (show start + (stop - start) ≤ stop by omega)⟩
  next hi =>
    simp only [KeyedView.instance?, if_pos (Nat.not_lt.1 hi)]
    rfl

end RecordStore
