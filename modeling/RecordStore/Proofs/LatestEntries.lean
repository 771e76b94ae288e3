import Mathlib.Data.List.Induction
import Mathlib.Data.List.Nodup
import Mathlib.Data.List.Perm.Basic
import RecordStore.Codec.Text

/-!
# Latest entries

Of several entries with one key the last one counts. What is kept of a list of entries is sorted
by key, whatever order they came in. Gathered entries are the same in the order in which their
keys first came.

## Main definitions

* `latest?` — the last entry of a key.
* `GatheredFrom` — entries in the places where their keys first come.

## Main statements

* `getElem?_latestEntries`, `mem_toList_latestEntries` — what is kept.
* `pairwise_toList_latestEntries` — the keys are strictly increasing.
* `toList_latestEntries_map` — a change of the entries that leaves the keys alone.
* `toList_latestEntries_congr` — entries of which the same is kept.
* `takePending_eq`, `exists_gatheredFrom` — what is gathered.
* `GatheredFrom.perm_toList` — gathered entries are those that are kept.
-/

namespace RecordStore

variable {α β : Type}

def latest? (entries : List (Bytes × α)) (key : Bytes) : Option α := entries.reverse.lookup key

theorem latest?_concat (entries : List (Bytes × α)) (key key' : Bytes) (entry : α) :
    latest? (entries ++ [(key', entry)]) key =
      if key = key' then some entry else latest? entries key := by
  by_cases hk : key = key'
  · simp [latest?, hk]
  · have : (key == key') = false := beq_eq_false_iff_ne.2 hk
    simp [latest?, List.lookup_cons, hk, this]

/-- The last entry of a key is the last one among those of the key. -/
theorem latest?_filter (entries : List (Bytes × α)) (key : Bytes) :
    latest? (entries.filter fun entry => entry.1 = key) key = latest? entries key := by
  induction entries using List.reverseRecOn with
  | nil => rfl
  | append_singleton entries entry ih =>
    obtain ⟨key', entry⟩ := entry
    rw [List.filter_append, latest?_concat]
    by_cases hk : key = key'
    · have hfilter : [(key', entry)].filter (fun entry => entry.1 = key) = [(key', entry)] := by
        simp [hk]
      rw [hfilter, latest?_concat, if_pos hk, if_pos hk]
    · have hfilter : [(key', entry)].filter (fun entry => entry.1 = key) = [] := by
        simp [Ne.symm hk]
      rw [hfilter, List.append_nil, if_neg hk, ih]

theorem latest?_map (f : α → β) (entries : List (Bytes × α)) (key : Bytes) :
    latest? (entries.map fun entry => (entry.1, f entry.2)) key = (latest? entries key).map f := by
  induction entries using List.reverseRecOn with
  | nil => rfl
  | append_singleton entries entry ih =>
    rw [List.map_append, List.map_singleton, latest?_concat, latest?_concat, ih]
    split <;> rfl

theorem latestEntries_concat (entries : List (Bytes × α)) (key : Bytes) (entry : α) :
    latestEntries (entries ++ [(key, entry)]) = (latestEntries entries).insert key entry := by
  simp [latestEntries]

theorem getElem?_latestEntries (entries : List (Bytes × α)) (key : Bytes) :
    (latestEntries entries)[key]? = latest? entries key := by
  induction entries using List.reverseRecOn with
  | nil => simp [latestEntries, latest?]
  | append_singleton entries entry ih =>
    rw [latestEntries_concat, latest?_concat, Std.TreeMap.getElem?_insert, ih]
    simp only [Std.LawfulEqOrd.compare_eq_iff_eq, eq_comm (a := key)]

/-- A key has an entry if any was given for it. -/
theorem latest?_isSome {entries : List (Bytes × α)} {key : Bytes} :
    (latest? entries key).isSome ↔ key ∈ entries.map (·.1) := by
  induction entries using List.reverseRecOn with
  | nil => simp [latest?]
  | append_singleton entries entry ih =>
    rw [latest?_concat]
    by_cases hk : key = entry.1 <;> simp_all

theorem mem_of_latest? {entries : List (Bytes × α)} {key : Bytes} {entry : α}
    (h : latest? entries key = some entry) : (key, entry) ∈ entries := by
  induction entries using List.reverseRecOn with
  | nil => simp [latest?] at h
  | append_singleton entries last ih =>
    rw [latest?_concat] at h
    by_cases hk : key = last.1
    · rw [if_pos hk, Option.some.injEq] at h
      simp [← h, hk]
    · rw [if_neg hk] at h
      exact List.mem_append_left _ (ih h)

theorem mem_toList_latestEntries {entries : List (Bytes × α)} {key : Bytes} {entry : α} :
    (key, entry) ∈ (latestEntries entries).toList ↔ latest? entries key = some entry := by
  rw [Std.TreeMap.mem_toList_iff_getElem?_eq_some, getElem?_latestEntries]

theorem pairwise_toList_latestEntries (entries : List (Bytes × α)) :
    (latestEntries entries).toList.Pairwise fun a b => compare a.1 b.1 = .lt :=
  Std.TreeMap.ordered_keys_toList

theorem nodup_keys_toList (entries : Std.TreeMap Bytes α) : (entries.toList.map (·.1)).Nodup := by
  refine List.pairwise_map.2 (Std.TreeMap.ordered_keys_toList.imp fun {a b} h he => ?_)
  have hs : compare b.1 b.1 = .eq := Std.ReflCmp.compare_self
  rw [he, hs] at h
  cases h

/-- A change of the entries that leaves the keys alone. -/
theorem toList_latestEntries_map (f : α → β) (entries : List (Bytes × α)) :
    (latestEntries (entries.map fun entry => (entry.1, f entry.2))).toList =
      (latestEntries entries).toList.map fun entry => (entry.1, f entry.2) := by
  have h : (latestEntries (entries.map fun entry => (entry.1, f entry.2))).Equiv
      ((latestEntries entries).map fun _ entry => f entry) :=
    Std.TreeMap.Equiv.of_forall_constGet?_eq fun key => by
      rw [Std.TreeMap.getElem?_map, getElem?_latestEntries, getElem?_latestEntries, latest?_map]
  rw [h.toList_eq, Std.TreeMap.toList_map]

/-- What is kept is the same if the last entry of each key is. -/
theorem toList_latestEntries_congr {entries entries' : List (Bytes × α)}
    (h : ∀ key, latest? entries key = latest? entries' key) :
    (latestEntries entries).toList = (latestEntries entries').toList := by
  have hequiv : (latestEntries entries).Equiv (latestEntries entries') :=
    Std.TreeMap.Equiv.of_forall_constGet?_eq fun key => by
      rw [getElem?_latestEntries, getElem?_latestEntries, h key]
  exact hequiv.toList_eq

/-! ## Gathered entries -/

/-- A key at the end has a place of its own if it has none before. -/
theorem eraseDups_concat (keys : List Bytes) (key : Bytes) :
    (keys ++ [key]).eraseDups =
      if key ∈ keys then keys.eraseDups else keys.eraseDups ++ [key] := by
  rw [List.eraseDups_append]
  split <;> simp_all [List.removeAll, List.eraseDups_cons]

theorem nodup_eraseDups (keys : List Bytes) : keys.eraseDups.Nodup := by
  induction keys using List.reverseRecOn with
  | nil => simp
  | append_singleton keys key ih =>
    rw [eraseDups_concat]
    split
    · exact ih
    · rename_i hkey
      rw [← List.concat_eq_append]
      exact ih.concat (mt List.mem_eraseDups.1 hkey)

theorem eraseDups_of_nodup {keys : List Bytes} (h : keys.Nodup) : keys.eraseDups = keys := by
  induction keys using List.reverseRecOn with
  | nil => rfl
  | append_singleton keys key ih =>
    obtain ⟨hkeys, -, hdisjoint⟩ := List.nodup_append'.1 h
    rw [eraseDups_concat, if_neg fun hm => hdisjoint hm List.mem_cons_self, ih hkeys]

theorem eraseDups_filter (p : Bytes → Bool) (keys : List Bytes) :
    (keys.filter p).eraseDups = keys.eraseDups.filter p := by
  induction keys using List.reverseRecOn with
  | nil => rfl
  | append_singleton keys key ih =>
    rw [List.filter_append, eraseDups_concat]
    cases hp : p key with
    | false => split <;> simp [hp, ih]
    | true =>
      rw [List.filter_cons_of_pos hp, List.filter_nil, eraseDups_concat, ih]
      split <;> simp_all

/-- Where a key gives nothing, its places may be left out. -/
theorem filterMap_eraseDups_filter {f g : Bytes → Option α} {key : Bytes} (hkey : f key = none)
    (h : ∀ other, other ≠ key → g other = f other) (keys : List Bytes) :
    (keys.filter fun other => !other == key).eraseDups.filterMap g =
      keys.eraseDups.filterMap f := by
  rw [eraseDups_filter, List.filterMap_filter]
  refine List.filterMap_congr fun other _ => ?_
  by_cases hk : other = key
  · simp [hk, hkey]
  · simp [hk, h]

/-- What is pending is taken in the order in which the keys first come. -/
theorem takePending_eq (pending : Std.TreeMap Bytes α) (keys : List Bytes) :
    takePending pending keys = keys.eraseDups.filterMap (pending[·]?) := by
  fun_induction takePending pending keys with
  | case1 => rfl
  | case2 pending key rest entry hentry ih =>
    rw [List.eraseDups_cons, List.filterMap_cons_some hentry, ih]
    refine congrArg (entry :: ·) (filterMap_eraseDups_filter (by simp) ?_ rest).symm
    intro other hother
    simp [Std.TreeMap.getElem?_erase, Ne.symm hother]
  | case3 pending key rest hnone ih =>
    rw [List.eraseDups_cons, List.filterMap_cons_none hnone, ih]
    exact (filterMap_eraseDups_filter hnone (fun _ _ => rfl) rest).symm

/-- Whether entries are gathered from others: a key has the place where it first comes and the entry
that comes last for it. -/
structure GatheredFrom (entries gathered : List (Bytes × α)) : Prop where
  keys : gathered.map (·.1) = (entries.map (·.1)).eraseDups
  latest : ∀ entry ∈ gathered, latest? entries entry.1 = some entry.2

namespace GatheredFrom

variable {entries gathered : List (Bytes × α)}

theorem nodup (h : GatheredFrom entries gathered) : (gathered.map (·.1)).Nodup :=
  h.keys ▸ nodup_eraseDups _

theorem subset (h : GatheredFrom entries gathered) : gathered ⊆ entries :=
  fun entry hm => mem_of_latest? (h.latest entry hm)

/-- Gathered entries are the last ones of each key in some order. -/
theorem perm_toList (h : GatheredFrom entries gathered) :
    gathered.Perm (latestEntries entries).toList := by
  rw [List.perm_ext_iff_of_nodup h.nodup.of_map (nodup_keys_toList _).of_map]
  rintro ⟨key, entry⟩
  rw [mem_toList_latestEntries]
  refine ⟨h.latest _, fun hlast => ?_⟩
  have hkey : key ∈ gathered.map (·.1) := by
    rw [h.keys, List.mem_eraseDups]
    exact latest?_isSome.1 (Option.isSome_of_eq_some hlast)
  obtain ⟨⟨key', entry'⟩, hm, rfl⟩ := List.mem_map.1 hkey
  obtain rfl := Option.some.inj (hlast.symm.trans (h.latest _ hm))
  exact hm

/-- The last entries of the keys, in the places where the keys first come. -/
theorem filterMap_latest (entries : List (Bytes × α)) :
    GatheredFrom entries ((entries.map (·.1)).eraseDups.filterMap fun key =>
      (latest? entries key).map (key, ·)) where
  keys := by
    rw [List.map_filterMap]
    refine Eq.trans (List.filterMap_congr fun key hkey => ?_) List.filterMap_some
    obtain ⟨entry, hentry⟩ := Option.isSome_iff_exists.1
      (latest?_isSome.2 (List.mem_eraseDups.1 hkey))
    simp [hentry]
  latest entry hm := by
    obtain ⟨key, -, hkey⟩ := List.mem_filterMap.1 hm
    obtain ⟨last, hlast, rfl⟩ := Option.map_eq_some_iff.1 hkey
    exact hlast

end GatheredFrom

theorem exists_gatheredFrom (entries : List (Bytes × Value × Option Value)) :
    ∃ gathered, gatherEntries entries = .keyed (gathered.map (·.2)) ∧
      GatheredFrom entries gathered := by
  refine ⟨_, ?_, .filterMap_latest entries⟩
  rw [gatherEntries, takePending_eq, List.map_filterMap]
  refine congrArg Value.keyed (List.filterMap_congr fun key _ => ?_)
  rw [getElem?_latestEntries, Option.map_map]
  exact Option.map_id'.symm

theorem latest?_eq_some_of_nodup {entries : List (Bytes × α)} (hn : (entries.map (·.1)).Nodup)
    {entry : Bytes × α} (hm : entry ∈ entries) : latest? entries entry.1 = some entry.2 := by
  obtain ⟨last, hlast⟩ := Option.isSome_iff_exists.1
    (latest?_isSome.2 (List.mem_map_of_mem (f := (·.1)) hm))
  rw [hlast, ← (List.inj_on_of_nodup_map hn (mem_of_latest? hlast) hm rfl)]

/-- Entries of distinct keys are gathered in their order. -/
theorem gatherEntries_of_nodup {entries : List (Bytes × Value × Option Value)}
    (h : (entries.map (·.1)).Nodup) : gatherEntries entries = .keyed (entries.map (·.2)) := by
  rw [gatherEntries, takePending_eq, eraseDups_of_nodup h, List.filterMap_map]
  refine congrArg Value.keyed ?_
  rw [← List.filterMap_eq_map]
  refine List.filterMap_congr fun entry hm => ?_
  rw [Function.comp_apply, getElem?_latestEntries, latest?_eq_some_of_nodup h hm]
  rfl

end RecordStore
