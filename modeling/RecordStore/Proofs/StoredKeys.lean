import RecordStore.Proofs.Outcomes
import RecordStore.Proofs.Reads
import RecordStore.Proofs.StorageOrder

/-!
# Stored keys

The keys of a keyed section, instance by instance in the order in which they are stored, fix the
body of the section and the view that is opened from it. A key is found at its place if it is
there, and nowhere else.

## Main definitions

* `StoredKeys` — the keys of a section.
* `StoredKeys.body`, `StoredKeys.view` — the body, and the view of it.
* `StoredKeys.Arranged` — whether the keys of each instance stand in storage order.

## Main statements

* `StoredKeys.reads_body` — the body is opened as the view.
* `StoredKeys.entries_instanceAt` — an instance lists its keys at consecutive places.
* `StoredKeys.get_instanceAt` — looking up a key gives the place of the key.
-/

namespace RecordStore

structure StoredKeys where
  /-- Whether the keys make a set. -/
  set : Bool
  ordered : Bool
  /-- The keys of each instance in storage order. -/
  instances : List (List Bytes)

namespace StoredKeys

def all (k : StoredKeys) : List Bytes := k.instances.flatten

def bucketSizes (keys : List Bytes) : List Nat :=
  (StorageOrder.spread (Bucket.count keys.length) id keys).map List.length

def tables (k : StoredKeys) : List (List Nat) :=
  k.instances.map fun keys => Section.offsets (bucketSizes keys)

def body (k : StoredKeys) : Bytes :=
  Bytes.ofNat 1 k.set.toNat ++ (Bytes.ofNat 8 k.instances.length ++
    (Section.numbers (Section.offsets (k.instances.map List.length)) ++
      (Section.numbers (Section.offsets (k.all.map List.length)) ++ (k.all.flatten ++
        if k.ordered then []
        else
          Section.numbers (Section.offsets (k.tables.map List.length)) ++
            Section.numbers k.tables.flatten))))

def hashTables (k : StoredKeys) : HashTables where
  index := (Section.offsets (k.tables.map List.length)).toArray
  table := k.tables.flatten.toArray

def view (k : StoredKeys) : KeyedView where
  set := k.set
  instances := k.instances.length
  entryStarts := (Section.offsets (k.instances.map List.length)).toArray
  keyOffsets := (Section.offsets (k.all.map List.length)).toArray
  keys := k.all.flatten.toArray
  hash := if k.ordered then none else some k.hashTables

/-- The keys of each instance stand in storage order. -/
def Arranged (k : StoredKeys) : Prop :=
  ∀ keys ∈ k.instances, ∃ sorted : List Bytes,
    sorted.Pairwise (fun a b => compare a b = .lt) ∧
      keys = StorageOrder.arrange k.ordered id sorted

/-! ## Sizes -/

theorem length_instances_lt {k : StoredKeys} (h : k.body.length < wordLimit) :
    k.instances.length < wordLimit := by
  simp only [body, List.length_append, Section.length_numbers, Section.length_offsets,
    List.length_map] at h
  omega

theorem length_all_lt {k : StoredKeys} (h : k.body.length < wordLimit) :
    k.all.length < wordLimit := by
  simp only [body, List.length_append, Section.length_numbers, Section.length_offsets,
    List.length_map] at h
  omega

theorem length_flatten_all_lt {k : StoredKeys} (h : k.body.length < wordLimit) :
    k.all.flatten.length < wordLimit := by
  simp only [body, List.length_append] at h
  omega

theorem length_flatten_tables_lt {k : StoredKeys} (ho : k.ordered = false)
    (h : k.body.length < wordLimit) : k.tables.flatten.length < wordLimit := by
  simp only [body, ho, Bool.false_eq_true, if_false, List.length_append,
    Section.length_numbers] at h
  omega

theorem sum_length_instances (k : StoredKeys) :
    (k.instances.map List.length).sum = k.all.length :=
  List.length_flatten.symm

@[simp] theorem length_bucketSizes (keys : List Bytes) :
    (bucketSizes keys).length = Bucket.count keys.length := by
  simp [bucketSizes]

theorem sum_bucketSizes (keys : List Bytes) : (bucketSizes keys).sum = keys.length := by
  rw [bucketSizes, ← List.length_flatten]
  exact (StorageOrder.flatten_spread_perm (Bucket.count_pos _) id keys).length_eq

/-- The sizes of the buckets do not depend on the order of the keys. -/
theorem bucketSizes_perm {a b : List Bytes} (h : a.Perm b) : bucketSizes a = bucketSizes b := by
  simp only [bucketSizes, StorageOrder.spread, List.map_map, h.length_eq]
  exact List.map_congr_left fun _ _ => (h.filter _).length_eq

theorem lt_of_mem_tables {k : StoredKeys} (h : k.body.length < wordLimit) {n : Nat}
    (hn : n ∈ k.tables.flatten) : n < wordLimit := by
  simp only [tables, List.mem_flatten, List.mem_map, exists_exists_and_eq_and] at hn
  obtain ⟨keys, hk, hn⟩ := hn
  have h₁ := Section.le_sum_of_mem_offsets hn
  have h₂ : keys.length ≤ k.all.length := (List.sublist_flatten_of_mem hk).length_le
  have h₃ := length_all_lt h
  rw [sum_bucketSizes] at h₁
  omega

/-! ## Instances -/

def startOf (k : StoredKeys) (i : Nat) : Nat := ((k.instances.map List.length).take i).sum

def tableStart (k : StoredKeys) (i : Nat) : Nat := ((k.tables.map List.length).take i).sum

def instanceAt (k : StoredKeys) (i : Nat) : KeyedInstance where
  view := k.view
  start := k.startOf i
  stop := k.startOf (i + 1)
  buckets :=
    if k.ordered then none else some (k.tableStart i, k.tableStart (i + 1), k.hashTables)

theorem startOf_succ (k : StoredKeys) {i : Nat} (hi : i < k.instances.length) :
    k.startOf (i + 1) = k.startOf i + k.instances[i].length :=
  Section.sum_take_succ_lengths k.instances hi

theorem startOf_le (k : StoredKeys) (i : Nat) : k.startOf i ≤ k.all.length :=
  Section.sum_take_lengths_le k.instances i

theorem length_tables (k : StoredKeys) : k.tables.length = k.instances.length := by
  simp [tables]

theorem entry_startOf (k : StoredKeys) {i : Nat} (hi : i ≤ k.instances.length) :
    Checked.entry k.view.entryStarts i = .ok (k.startOf i) := by
  simp only [Checked.entry, view, List.getElem?_toArray]
  rw [Section.getElem?_offsets (by simpa using hi)]
  rfl

theorem entry_tableStart (k : StoredKeys) {i : Nat} (hi : i ≤ k.instances.length) :
    Checked.entry k.hashTables.index i = .ok (k.tableStart i) := by
  simp only [Checked.entry, hashTables, List.getElem?_toArray]
  rw [Section.getElem?_offsets (by simpa [length_tables] using hi)]
  rfl

theorem instance?_view (k : StoredKeys) {i : Nat} (hi : i < k.instances.length) :
    k.view.instance? i = .ok (some (k.instanceAt i)) := by
  have hs := k.entry_startOf hi.le
  have ht := k.entry_startOf (Nat.succ_le_of_lt hi)
  have hn : ¬k.view.instances ≤ i := Nat.not_le.2 hi
  cases ho : k.ordered with
  | true =>
    have hh : k.view.hash = none := by simp [view, ho]
    simp only [KeyedView.instance?, if_neg hn, hh, hs, ht]
    simp [instanceAt, ho]
  | false =>
    have hh : k.view.hash = some k.hashTables := by simp [view, ho]
    have hf := k.entry_tableStart hi.le
    have hl := k.entry_tableStart (Nat.succ_le_of_lt hi)
    simp only [KeyedView.instance?, if_neg hn, hh, hs, ht]
    simp [instanceAt, ho, hf, hl]

/-! ## Entries -/

theorem key_view (k : StoredKeys) {e : Nat} (he : e < k.all.length) :
    k.view.key e = .ok k.all[e] := by
  have entry (j : Nat) (hj : j ≤ k.all.length) :
      Checked.entry k.view.keyOffsets j = .ok ((k.all.map List.length).take j).sum := by
    simp only [Checked.entry, view, List.getElem?_toArray]
    rw [Section.getElem?_offsets (by simpa using hj)]
  have hle := Section.sum_take_succ_lengths k.all he
  have hmax := Section.sum_take_lengths_le k.all (e + 1)
  simp only [KeyedView.key, entry e he.le, entry (e + 1) he]
  show Checked.slice k.view.keys _ _ = _
  rw [Checked.slice, if_pos ⟨by omega, by simpa [view] using hmax⟩,
    ← Section.extract_flatten k.all he]
  rfl

/-- The keys of an instance stand in a row from its first entry on. -/
theorem getElem?_all (k : StoredKeys) {i j : Nat} (hi : i < k.instances.length)
    (hj : j < k.instances[i].length) : k.all[k.startOf i + j]? = some k.instances[i][j] :=
  Section.getElem?_flatten k.instances hi hj

theorem entries_instanceAt (k : StoredKeys) {i : Nat} (hi : i < k.instances.length) :
    (k.instanceAt i).entries =
      .ok (k.instances[i].mapIdx fun j key => (key, k.view.slotted (k.startOf i + j))) := by
  have hlen : k.startOf (i + 1) - k.startOf i = k.instances[i].length := by
    have := k.startOf_succ hi
    omega
  simp only [KeyedInstance.entries, instanceAt, hlen]
  rw [mapM_eq_ok (g := fun e => (k.all[e]?.getD [], k.view.slotted e))]
  · refine congrArg Except.ok (List.ext_getElem (by simp) ?_)
    intro j h₁ h₂
    have hj : j < k.instances[i].length := by simpa using h₂
    simp [k.getElem?_all hi hj]
  · intro e he
    rw [List.mem_range'_1] at he
    have hlt : e < k.all.length := by
      have := k.startOf_succ hi
      have := k.startOf_le (i + 1)
      omega
    rw [k.key_view hlt, List.getElem?_eq_getElem hlt]
    rfl

def listed (k : StoredKeys) : List (List (Bytes × Slotted)) :=
  k.instances.mapIdx fun i keys =>
    keys.mapIdx fun j key => (key, k.view.slotted (k.startOf i + j))

theorem mapM_entries (k : StoredKeys) :
    ((List.range k.instances.length).map k.instanceAt).mapM KeyedInstance.entries =
      .ok k.listed := by
  rw [List.mapM_map, mapM_eq_ok (g := fun i =>
    (k.instances[i]?.getD []).mapIdx fun j key => (key, k.view.slotted (k.startOf i + j)))]
  · exact congrArg Except.ok (List.ext_getElem (by simp [listed]) fun i h₁ h₂ => by
      have hi : i < k.instances.length := by simpa using h₁
      simp [listed, hi])
  · intro i hi
    have hi := List.mem_range.1 hi
    simp only [Function.comp_apply, k.entries_instanceAt hi, List.getElem?_eq_getElem hi]
    rfl

theorem flatten_listed (k : StoredKeys) :
    k.listed.flatten = k.all.mapIdx fun e key => (key, k.view.slotted e) :=
  Section.flatten_mapIdx (fun e key => (key, k.view.slotted e)) k.instances

/-! ## Opening -/

/-- The bucket table of every instance passes the check made when it is opened. -/
theorem checkBuckets_eq (k : StoredKeys) {i : Nat} (hi : i < k.instances.length) :
    Container.checkBuckets k.hashTables k.view.entryStarts i = .ok true := by
  have ht : i < k.tables.length := by rwa [length_tables]
  have hsucc : k.tableStart (i + 1) = k.tableStart i + k.tables[i].length :=
    Section.sum_take_succ_lengths k.tables ht
  have hmax : k.tableStart (i + 1) ≤ k.hashTables.table.size := by
    rw [hashTables, List.size_toArray]
    exact Section.sum_take_lengths_le k.tables (i + 1)
  have hitem : k.tables[i] = Section.offsets (bucketSizes k.instances[i]) := by simp [tables]
  have hcount : k.tableStart (i + 1) - k.tableStart i - 1 = Bucket.count k.instances[i].length := by
    rw [hsucc, hitem, Section.length_offsets, length_bucketSizes]
    omega
  have hbounds : (k.hashTables.table.extract (k.tableStart i) (k.tableStart (i + 1))).toList =
      Section.offsets (bucketSizes k.instances[i]) := by
    rw [← hitem]
    exact Section.extract_flatten k.tables ht
  have hkeys : Checked.sub (k.startOf (i + 1)) (k.startOf i) = .ok k.instances[i].length := by
    rw [Checked.sub, if_pos (by rw [k.startOf_succ hi]; omega), k.startOf_succ hi]
    congr 1
    omega
  have hcheck := isOffsetTable_offsets (bucketSizes k.instances[i])
  rw [sum_bucketSizes] at hcheck
  have hnot : ¬(k.tableStart (i + 1) < k.tableStart i ∨
      k.hashTables.table.size < k.tableStart (i + 1)) := by omega
  simp only [Container.checkBuckets, k.entry_tableStart hi.le, k.entry_tableStart hi,
    k.entry_startOf hi.le, k.entry_startOf hi]
  show (do
    if k.tableStart (i + 1) < k.tableStart i ∨ k.hashTables.table.size < k.tableStart (i + 1) then
      throw .outOfRange
    let bounds :=
      (k.hashTables.table.extract (k.tableStart i) (k.tableStart (i + 1))).toList
    let keys ← Checked.sub (k.startOf (i + 1)) (k.startOf i)
    let count := k.tableStart (i + 1) - k.tableStart i - 1
    return count = Bucket.leastPower count && isOffsetTable bounds keys : Checked Bool) = _
  rw [if_neg hnot, hkeys]
  simp only [hbounds, hcount, Bucket.leastPower_count]
  show Except.ok _ = _
  simp [hcheck]

theorem reads_takeHash (k : StoredKeys) (ordinal : Nat) (ho : k.ordered = false)
    (h : k.body.length < wordLimit) :
    Take.Reads (Container.takeHash ordinal k.instances.length k.view.entryStarts)
      (Section.numbers (Section.offsets (k.tables.map List.length)) ++
        Section.numbers k.tables.flatten) k.hashTables := by
  have hsum : (k.tables.map List.length).sum = k.tables.flatten.length := List.length_flatten.symm
  have hlt : (k.tables.map List.length).sum < wordLimit := by
    rw [hsum]
    exact length_flatten_tables_lt ho h
  refine (Container.reads_takeOffsets ordinal .bucketIndex (by simp [length_tables]) hlt).bind ?_
  refine (Take.Reads.numbers hsum.symm fun _ hn => lt_of_mem_tables h hn).bind_pure ?_
  refine (Take.Reads.forIn_nil fun i hi => ?_).bind_nil (.pure _)
  have hc := k.checkBuckets_eq (List.mem_range.1 hi)
  simp only [hashTables] at hc
  simp only [hc]
  exact (Take.Reads.ofExcept rfl).bind_nil (.pure _)

/-- The body is opened as the view. -/
theorem reads_body (k : StoredKeys) (ordinal : Nat) (h : k.body.length < wordLimit) :
    Take.Reads (Container.takeKeyed ordinal k.ordered) k.body k.view := by
  have hset : k.set.toNat < 256 ^ 1 := by cases k.set <;> decide
  have hall : (k.instances.map List.length).sum < wordLimit := by
    rw [sum_length_instances]
    exact length_all_lt h
  have hkeys : (k.all.map List.length).sum < wordLimit := by
    rw [← List.length_flatten]
    exact length_flatten_all_lt h
  refine (Take.Reads.number hset).bind ((@Take.Reads.number 8 _ (length_instances_lt h)).bind ?_)
  refine (Container.reads_takeOffsets ordinal .entryStarts (by simp) hall).bind ?_
  refine (Container.reads_takeOffsets ordinal .keyOffsets (by simp [sum_length_instances])
    hkeys).bind ?_
  refine (Take.Reads.bytes List.length_flatten).bind ?_
  have hflag : decide (k.set.toNat ≠ 0) = k.set := by cases k.set <;> rfl
  cases ho : k.ordered with
  | true =>
    have hv : k.view.hash = none := by simp [view, ho]
    simp only [if_true, hflag]
    rw [← hv]
    exact Take.Reads.bind_nil (.pure _) (.pure k.view)
  | false =>
    have hv : k.view.hash = some k.hashTables := by simp [view, ho]
    simp only [Bool.false_eq_true, if_false, hflag]
    refine ((k.reads_takeHash ordinal ho h).map some).bind_pure ?_
    rw [← hv]
    exact .pure k.view

/-! ## Looking keys up -/

theorem compare_self_eq (key : Bytes) : compare key key = .eq := Std.ReflCmp.compare_self

/-- Among entries in order, a search finds the place of the key, or nothing if it has none. -/
theorem search_eq (k : StoredKeys) (key : Bytes) (low high : Nat) (hb : high ≤ k.all.length)
    (hs : ∀ e f (_ : low ≤ e) (_ : e < f) (hf : f < high), compare k.all[e] k.all[f] = .lt) :
    (∃ e, low ≤ e ∧ e < high ∧ k.all[e]? = some key ∧
      KeyedInstance.search k.view key low high = .ok (some (k.view.slotted e))) ∨
    (∀ e, low ≤ e → e < high → k.all[e]? ≠ some key) ∧
      KeyedInstance.search k.view key low high = .ok none := by
  generalize hd : high - low = d
  induction d using Nat.strong_induction_on generalizing low high with
  | _ d ih =>
    rw [KeyedInstance.search]
    by_cases hlt : low < high
    · rw [if_pos hlt]
      set middle := low + (high - low) / 2 with hm
      have hlow : low ≤ middle := Nat.le_add_right _ _
      have hhigh : middle < high := by omega
      have hmid : middle < k.all.length := by omega
      simp only [k.key_view hmid]
      cases hc : compare k.all[middle] key with
      | eq =>
        have hkey : k.all[middle] = key := Std.LawfulEqOrd.eq_of_compare hc
        exact Or.inl ⟨middle, hlow, hhigh, by rw [List.getElem?_eq_getElem hmid, hkey], rfl⟩
      | lt =>
        -- a key in the lower part would be below the key in the middle
        have hbelow : ∀ e, low ≤ e → e ≤ middle → k.all[e]? ≠ some key := by
          intro e hle hem he
          rw [List.getElem?_eq_getElem (by omega), Option.some.injEq] at he
          rcases hem.lt_or_eq with hem | rfl
          · have := hs e middle hle hem hhigh
            rw [he] at this
            rw [Std.OrientedCmp.gt_of_lt this] at hc
            cases hc
          · rw [he, compare_self_eq] at hc
            cases hc
        rcases ih (high - (middle + 1)) (by omega) _ _ hb
          (fun e f hle hef hf => hs e f (by omega) hef hf) rfl with ⟨e, h₁, h₂, h₃, h₄⟩ | ⟨h₁, h₂⟩
        · exact Or.inl ⟨e, by omega, h₂, h₃, h₄⟩
        · refine Or.inr ⟨fun e hle hlt => ?_, h₂⟩
          by_cases hem : e ≤ middle
          · exact hbelow e hle hem
          · exact h₁ e (by omega) hlt
      | gt =>
        have habove : ∀ e, middle ≤ e → e < high → k.all[e]? ≠ some key := by
          intro e hme hlt he
          rw [List.getElem?_eq_getElem (by omega), Option.some.injEq] at he
          rcases hme.lt_or_eq with hme | rfl
          · have := hs middle e hlow hme hlt
            rw [he] at this
            rw [this] at hc
            cases hc
          · rw [he, compare_self_eq] at hc
            cases hc
        rcases ih (middle - low) (by omega) _ _ (by omega)
          (fun e f hle hef hf => hs e f hle hef (by omega)) rfl with ⟨e, h₁, h₂, h₃, h₄⟩ | ⟨h₁, h₂⟩
        · exact Or.inl ⟨e, h₁, by omega, h₃, h₄⟩
        · refine Or.inr ⟨fun e hle hlt => ?_, h₂⟩
          by_cases hem : e < middle
          · exact h₁ e hle hem
          · exact habove e (by omega) hlt
    · rw [if_neg hlt]
      exact Or.inr ⟨fun e _ _ => by omega, rfl⟩

theorem Arranged.nodup {k : StoredKeys} (ha : k.Arranged) {keys : List Bytes}
    (hk : keys ∈ k.instances) : keys.Nodup := by
  obtain ⟨sorted, hs, rfl⟩ := ha keys hk
  refine (StorageOrder.arrange_perm k.ordered id sorted).nodup_iff.2 (hs.imp fun {a b} hab => ?_)
  rintro rfl
  rw [compare_self_eq] at hab
  cases hab

/-- A search among some entries of an instance, which are in order and hold the key if the
instance does. -/
theorem search_window (k : StoredKeys) (key : Bytes) {i a b : Nat} (hi : i < k.instances.length)
    (hn : k.instances[i].Nodup) (hb : b ≤ k.instances[i].length)
    (hs : ((k.instances[i].take b).drop a).Pairwise fun x y => compare x y = .lt)
    (hk : ∀ j (_ : j < k.instances[i].length), k.instances[i][j] = key → a ≤ j ∧ j < b) :
    KeyedInstance.search k.view key (k.startOf i + a) (k.startOf i + b) =
      .ok (if key ∈ k.instances[i] then
        some (k.view.slotted (k.startOf i + k.instances[i].idxOf key)) else none) := by
  have hlen := k.startOf_succ hi
  have hmax := k.startOf_le (i + 1)
  have hall : ∀ j (hj : j < k.instances[i].length) (he : k.startOf i + j < k.all.length),
      k.all[k.startOf i + j] = k.instances[i][j] := fun j hj he => by
    have := k.getElem?_all hi hj
    rwa [List.getElem?_eq_getElem he, Option.some.injEq] at this
  have horder : ∀ e f (_ : k.startOf i + a ≤ e) (_ : e < f) (hf : f < k.startOf i + b)
      (he : e < k.all.length) (hf : f < k.all.length), compare k.all[e] k.all[f] = .lt := by
    intro e f hle hef hlt he hf
    obtain ⟨m, rfl⟩ := Nat.exists_eq_add_of_le (Nat.le_trans (Nat.le_add_right _ a) hle)
    obtain ⟨n, rfl⟩ := Nat.exists_eq_add_of_le (show k.startOf i ≤ f by omega)
    have hw : ((k.instances[i].take b).drop a).length = b - a := by
      rw [List.length_drop, List.length_take_of_le hb]
    have h := List.pairwise_iff_getElem.1 hs (m - a) (n - a) (by omega) (by omega) (by omega)
    simp only [List.getElem_drop, List.getElem_take, show a + (m - a) = m by omega,
      show a + (n - a) = n by omega] at h
    rwa [hall m (by omega) he, hall n (by omega) hf]
  rcases k.search_eq key (k.startOf i + a) (k.startOf i + b) (by omega)
    (fun e f hle hef hf => horder e f hle hef hf _ _) with ⟨e, hle, hlt, he, hr⟩ | ⟨hnot, hr⟩
  · obtain ⟨j, rfl⟩ := Nat.exists_eq_add_of_le (Nat.le_trans (Nat.le_add_right _ a) hle)
    have hj : j < k.instances[i].length := by omega
    rw [k.getElem?_all hi hj, Option.some.injEq] at he
    have hmem : key ∈ k.instances[i] := he ▸ List.getElem_mem hj
    rw [hr, if_pos hmem, ← he, hn.idxOf_getElem j hj]
  · rw [hr, if_neg]
    intro hmem
    obtain ⟨j, hj, he⟩ := List.mem_iff_getElem.1 hmem
    obtain ⟨haj, hjb⟩ := hk j hj he
    exact hnot (k.startOf i + j) (by omega) (by omega) (by rw [k.getElem?_all hi hj, he])

/-- The entries among which a key of an unordered instance is looked for. -/
theorem bounds_instanceAt (k : StoredKeys) (key : Bytes) {i : Nat} (ho : k.ordered = false)
    (hi : i < k.instances.length) (h : k.body.length < wordLimit) :
    (k.instanceAt i).bounds key =
      .ok (k.startOf i + ((bucketSizes k.instances[i]).take
          (Bucket.ofKey key (Bucket.count k.instances[i].length))).sum,
        k.startOf i + ((bucketSizes k.instances[i]).take
          (Bucket.ofKey key (Bucket.count k.instances[i].length) + 1)).sum) := by
  have ht : i < k.tables.length := by rwa [length_tables]
  have hsucc : k.tableStart (i + 1) = k.tableStart i + k.tables[i].length :=
    Section.sum_take_succ_lengths k.tables ht
  have hmax : k.tableStart (i + 1) ≤ k.tables.flatten.length :=
    Section.sum_take_lengths_le k.tables (i + 1)
  have hitem : k.tables[i] = Section.offsets (bucketSizes k.instances[i]) := by simp [tables]
  have hsize : k.tables[i].length = Bucket.count k.instances[i].length + 1 := by
    rw [hitem, Section.length_offsets, length_bucketSizes]
  have hlimit := length_flatten_tables_lt ho h
  have hlast := k.startOf_succ hi
  have hall := k.startOf_le (i + 1)
  have hentries := length_all_lt h
  have hwidth : Checked.sub (k.tableStart (i + 1)) (k.tableStart i) =
      .ok (Bucket.count k.instances[i].length + 1) := by
    rw [Checked.sub, if_pos (by omega)]
    congr 1
    omega
  have hcount : Checked.sub (Bucket.count k.instances[i].length + 1) 1 =
      .ok (Bucket.count k.instances[i].length) := rfl
  have hlt := Bucket.ofKey_lt key (Bucket.count_pos k.instances[i].length)
  generalize hbucket : Bucket.ofKey key (Bucket.count k.instances[i].length) = bucket at hlt ⊢
  have entry (j : Nat) (hj : j ≤ Bucket.count k.instances[i].length) :
      Checked.entry k.hashTables.table (k.tableStart i + j) =
        .ok ((bucketSizes k.instances[i]).take j).sum := by
    have hg := Section.getElem?_flatten k.tables (j := j) ht (by omega)
    have ho : (Section.offsets (bucketSizes k.instances[i]))[j]? =
        some ((bucketSizes k.instances[i]).take j).sum :=
      Section.getElem?_offsets (by rwa [length_bucketSizes])
    simp only [Checked.entry, hashTables, List.getElem?_toArray]
    rw [tableStart, hg, ← List.getElem?_eq_getElem, hitem, ho]
  have sum_le (j : Nat) : ((bucketSizes k.instances[i]).take j).sum ≤ k.instances[i].length := by
    have := List.sum_take_add_sum_drop (bucketSizes k.instances[i]) j
    rw [sum_bucketSizes] at this
    omega
  have add (a b : Nat) (hlt : a + b < wordLimit) : Checked.add a b = .ok (a + b) := if_pos hlt
  have hlow := sum_le bucket
  have hhigh := sum_le (bucket + 1)
  simp only [KeyedInstance.bounds, instanceAt, ho, Bool.false_eq_true, if_false, hwidth, hcount,
    ok_bind, hbucket, add _ _ (show k.tableStart i + bucket < wordLimit by omega),
    entry bucket hlt.le, Nat.add_assoc (k.tableStart i), entry (bucket + 1) hlt,
    add _ _ (show k.startOf i + ((bucketSizes k.instances[i]).take bucket).sum < wordLimit by
      omega),
    add _ _ (show k.startOf i + ((bucketSizes k.instances[i]).take (bucket + 1)).sum < wordLimit by
      omega), pure_eq_ok]

/-- Looking up a key gives the place of the key. -/
theorem get_instanceAt {k : StoredKeys} (ha : k.Arranged) (key : Bytes) {i : Nat}
    (hi : i < k.instances.length) (h : k.body.length < wordLimit) :
    (k.instanceAt i).get key =
      .ok (if key ∈ k.instances[i] then
        some (k.view.slotted (k.startOf i + k.instances[i].idxOf key)) else none) := by
  have hn := ha.nodup (List.getElem_mem hi)
  obtain ⟨sorted, hs, hk⟩ := ha _ (List.getElem_mem hi)
  cases ho : k.ordered with
  | true =>
    have hb : (k.instanceAt i).bounds key =
        .ok (k.startOf i + 0, k.startOf i + k.instances[i].length) := by
      rw [← k.startOf_succ hi]
      simp [KeyedInstance.bounds, instanceAt, ho]
    rw [ho, StorageOrder.arrange, if_pos rfl] at hk
    simp only [KeyedInstance.get, hb, ok_bind]
    refine k.search_window key hi hn le_rfl ?_ fun j hj _ => ⟨Nat.zero_le j, hj⟩
    rw [List.take_length, List.drop_zero, hk]
    exact hs
  | false =>
    rw [ho, StorageOrder.arrange, if_neg Bool.false_ne_true] at hk
    have hlen : k.instances[i].length = sorted.length := by
      have := congrArg List.length hk
      rwa [(StorageOrder.flatten_spread_perm (Bucket.count_pos _) id sorted).length_eq] at this
    have hsizes : bucketSizes k.instances[i] =
        (StorageOrder.spread (Bucket.count sorted.length) id sorted).map List.length := by
      rw [hk]
      exact bucketSizes_perm (StorageOrder.flatten_spread_perm (Bucket.count_pos _) id sorted)
    have hlt := Bucket.ofKey_lt key (Bucket.count_pos sorted.length)
    simp only [KeyedInstance.get, k.bounds_instanceAt key ho hi h, ok_bind]
    rw [hsizes, hlen]
    set buckets := StorageOrder.spread (Bucket.count sorted.length) id sorted with hbuckets
    set bucket := Bucket.ofKey key (Bucket.count sorted.length) with hbucket
    have hin : bucket < buckets.length := by rwa [hbuckets, StorageOrder.length_spread]
    have hitem : buckets[bucket] = sorted.filter fun key' =>
        Bucket.ofKey key' (Bucket.count sorted.length) = bucket := by
      simp [hbuckets, StorageOrder.spread]
    have hwindow : ((k.instances[i].take ((buckets.map List.length).take (bucket + 1)).sum).drop
        ((buckets.map List.length).take bucket).sum) = buckets[bucket] := by
      rw [hk]
      exact Section.drop_take_flatten buckets hin
    have hsum := Section.sum_take_lengths_le buckets (bucket + 1)
    rw [← hk] at hsum
    refine k.search_window key hi hn hsum ?_ fun j hj he => ?_
    · rw [hwindow, hitem]
      exact hs.filter _
    · -- the key stands in its own bucket, and in no other place
      have hmem : key ∈ buckets[bucket] := by
        rw [hitem, List.mem_filter]
        refine ⟨?_, by simp [hbucket]⟩
        have : key ∈ k.instances[i] := he ▸ List.getElem_mem hj
        rw [hk] at this
        exact (StorageOrder.flatten_spread_perm (Bucket.count_pos _) id sorted).mem_iff.1 this
      obtain ⟨m, hm, hkey⟩ := List.mem_iff_getElem.1 hmem
      have hsucc := Section.sum_take_succ_lengths buckets hin
      have hplace : ((buckets.map List.length).take bucket).sum + m < k.instances[i].length := by
        omega
      have hfound : k.instances[i][((buckets.map List.length).take bucket).sum + m] = key := by
        have := Section.getElem?_flatten buckets hin hm
        rwa [← hk, List.getElem?_eq_getElem hplace, Option.some.injEq, hkey] at this
      have := (@List.Nodup.getElem_inj_iff _ _ hn _ hj _ hplace).1 (he.trans hfound.symm)
      omega

end StoredKeys

end RecordStore
