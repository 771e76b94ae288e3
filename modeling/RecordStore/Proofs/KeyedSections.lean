import RecordStore.Proofs.LatestEntries
import RecordStore.Proofs.StoredKeys

/-!
# Keyed sections serve what was inserted

A sink is driven by calls that start instances and insert keys. Whatever the calls, the section at
their end is opened again, and each of its instances leads every key to what was inserted last.

## Main definitions

* `SinkCall`, `KeyedSink.run` — calls, and the sink behind a row of them.
* `SinkCall.history` — what was inserted into each instance.
* `KeyedInstance.Serves`, `Lists` — what a reader gets to see of an instance.

## Main statements

* `KeyedSink.skeletons_run` — a sink keeps the latest entries of each instance.
* `KeyedSink.body_eq` — the body of a sink is that of its keys.
* `KeyedSink.opened_section_serves_inserts` — the section serves what was inserted.
-/

namespace RecordStore

/-! ## Calls -/

inductive SinkCall
  | startInstance
  | insert (key : Bytes) (slot : Slot)
  deriving DecidableEq, Repr

namespace SinkCall

/-- Whether a call inserts what a set, or a map, takes. -/
def Suits (set : Bool) : SinkCall → Prop
  | startInstance => True
  | insert _ .presence => set = true
  | insert _ (.staged _) => set = false

def record (history : List Entries) : SinkCall → List Entries
  | startInstance => history ++ [[]]
  | insert key slot =>
    match history.getLast? with
    | none => [[(key, slot)]]
    | some latest => history.dropLast ++ [latest ++ [(key, slot)]]

/-- What was inserted into each instance, in the order of the calls. -/
def history (calls : List SinkCall) : List Entries := calls.foldl record []

/-- How many instances calls start: an insert that comes first starts one as well. -/
def started (calls : List SinkCall) : Nat :=
  calls.count .startInstance +
    match calls.head? with
    | some (.insert _ _) => 1
    | _ => 0

theorem history_concat (calls : List SinkCall) (call : SinkCall) :
    history (calls ++ [call]) = record (history calls) call := by
  simp [history]

theorem length_history (calls : List SinkCall) : (history calls).length = started calls := by
  induction calls using List.reverseRecOn with
  | nil => rfl
  | append_singleton calls call ih =>
    have hcount : started (calls ++ [call]) =
        if calls = [] then 1 else started calls + [call].count .startInstance := by
      cases calls with
      | nil => cases call <;> simp [started]
      | cons first calls =>
        rw [if_neg (List.cons_ne_nil _ _), started, List.count_append, started]
        exact Nat.add_right_comm ..
    have hpos : calls ≠ [] → history calls ≠ [] := by
      intro hne hnil
      rw [hnil] at ih
      cases calls with
      | nil => exact hne rfl
      | cons first calls => cases first <;> simp [started] at ih
    rw [history_concat, hcount]
    cases call with
    | startInstance =>
      by_cases hc : calls = []
      · simp [hc, history, record]
      · simp [hc, record, ih]
    | insert key slot =>
      by_cases hc : calls = []
      · simp [hc, history, record]
      · have hlast := List.getLast?_eq_some_getLast (hpos hc)
        have hlen := List.length_pos_iff.2 (hpos hc)
        simp only [record, hlast, if_neg hc]
        simp [← ih]
        omega

theorem suits_of_mem_history {set : Bool} {calls : List SinkCall}
    (h : ∀ call ∈ calls, call.Suits set) {inserts : Entries} (hi : inserts ∈ history calls)
    {key : Bytes} {slot : Slot} (hs : (key, slot) ∈ inserts) : (insert key slot).Suits set := by
  induction calls using List.reverseRecOn generalizing inserts with
  | nil => simp [history] at hi
  | append_singleton calls call ih =>
    have hcalls : ∀ call ∈ calls, call.Suits set := fun c hc => h c (List.mem_append_left _ hc)
    rw [history_concat] at hi
    cases call with
    | startInstance =>
      simp only [record, List.mem_append, List.mem_singleton] at hi
      rcases hi with hi | rfl
      · exact ih hcalls hi hs
      · simp at hs
    | insert key' slot' =>
      have hlast : (insert key' slot').Suits set := h _ (by simp)
      simp only [record] at hi
      split at hi
      · rw [List.mem_singleton] at hi
        rw [hi, List.mem_singleton, Prod.mk.injEq] at hs
        rwa [hs.1, hs.2]
      · rename_i latest hl
        rw [List.mem_append, List.mem_singleton] at hi
        rcases hi with hi | rfl
        · exact ih hcalls (List.mem_of_mem_dropLast hi) hs
        · rw [List.mem_append, List.mem_singleton, Prod.mk.injEq] at hs
          rcases hs with hs | hs
          · exact ih hcalls (List.mem_of_getLast? hl) hs
          · rwa [hs.1, hs.2]

end SinkCall

namespace KeyedSink

def call (k : KeyedSink) : SinkCall → KeyedSink
  | .startInstance => k.startInstance
  | .insert key slot => k.insert key slot

def run (k : KeyedSink) (calls : List SinkCall) : KeyedSink := calls.foldl call k

theorem run_concat (k : KeyedSink) (calls : List SinkCall) (call : SinkCall) :
    k.run (calls ++ [call]) = (k.run calls).call call := by
  simp [run]

theorem run_eq (k : KeyedSink) (calls : List SinkCall) :
    k.run calls = { k with skeletons := (k.run calls).skeletons } := by
  induction calls using List.reverseRecOn with
  | nil => rfl
  | append_singleton calls call ih =>
    rw [run_concat]
    cases call with
    | startInstance =>
      rw [KeyedSink.call, startInstance, ih]
    | insert key slot =>
      rw [KeyedSink.call, insert, ih]
      split <;> rfl

@[simp] theorem ordinal_run (k : KeyedSink) (calls : List SinkCall) :
    (k.run calls).ordinal = k.ordinal := by
  rw [run_eq]

@[simp] theorem args_run (k : KeyedSink) (calls : List SinkCall) :
    (k.run calls).args = k.args := by
  rw [run_eq]

@[simp] theorem ordered_run (k : KeyedSink) (calls : List SinkCall) :
    (k.run calls).ordered = k.ordered := by
  rw [run_eq]

@[simp] theorem set_run (k : KeyedSink) (calls : List SinkCall) :
    (k.run calls).set = k.set := by
  rw [run_eq]

/-- One call on a sink that keeps the latest entries of each instance. -/
theorem skeletons_call {k : KeyedSink} {history : List Entries}
    (h : k.skeletons.toList = history.map latestEntries) (call : SinkCall) :
    (k.call call).skeletons.toList = (SinkCall.record history call).map latestEntries := by
  cases call with
  | startInstance =>
    simp only [KeyedSink.call, startInstance, SinkCall.record, Array.toList_push, h,
      List.map_append, List.map_singleton]
    rfl
  | insert key slot =>
    have hsize : k.skeletons.size = history.length := by
      rw [← Array.length_toList, h, List.length_map]
    simp only [KeyedSink.call, insert, SinkCall.record]
    cases history using List.reverseRecOn with
    | nil =>
      have hempty : k.skeletons = #[] := Array.toList_eq_nil_iff.1 h
      have hnone : k.instances = 0 := by simp [instances, hempty]
      rw [if_pos hnone]
      simp [startInstance, instances, hempty, latestEntries]
    | append_singleton front latest =>
      have hsome : k.instances = front.length + 1 := by simp [instances, hsize]
      rw [if_neg (by omega), Array.toList_modify, h, hsome, Nat.add_sub_cancel,
        List.modify_eq_take_cons_drop (by simp)]
      simp [List.drop_append, latestEntries]

/-- A sink keeps the latest entries of each instance. -/
theorem skeletons_run (ordinal : Nat) (ordered set : Bool) (args : List String)
    (calls : List SinkCall) :
    ((start ordinal ordered set args).run calls).skeletons.toList =
      (SinkCall.history calls).map latestEntries := by
  induction calls using List.reverseRecOn with
  | nil => rfl
  | append_singleton calls call ih =>
    rw [run_concat, SinkCall.history_concat]
    exact skeletons_call ih call

/-! ## The keys of a sink -/

def keys (k : KeyedSink) : StoredKeys where
  set := k.set
  ordered := k.ordered
  instances := k.stored.map (List.map (·.1))

/-- The entries in storage order, of a sink that keeps the latest entries of each instance. -/
theorem stored_eq_of_skeletons {k : KeyedSink} {history : List Entries}
    (h : k.skeletons.toList = history.map latestEntries) :
    k.stored = history.map fun inserts =>
      StorageOrder.arrange k.ordered (·.1) (latestEntries inserts).toList := by
  rw [stored_eq, sorted, h, List.map_map, List.map_map]
  rfl

theorem arranged_keys (k : KeyedSink) : k.keys.Arranged := by
  intro keys hk
  simp only [KeyedSink.keys, stored_eq, sorted, List.map_map, List.mem_map,
    Function.comp_apply] at hk
  obtain ⟨skeleton, -, rfl⟩ := hk
  refine ⟨skeleton.toList.map (·.1), ?_, ?_⟩
  · exact List.pairwise_map.2 Std.TreeMap.ordered_keys_toList
  · exact (StorageOrder.arrange_map k.ordered id (·.1) skeleton.toList).symm

theorem all_keys (k : KeyedSink) :
    k.keys.all = k.stored.flatten.map (·.1) := by
  rw [StoredKeys.all, KeyedSink.keys, List.map_flatten]

theorem bucketTables_eq (k : KeyedSink) :
    k.bucketTables = k.keys.tables := by
  simp only [bucketTables, StoredKeys.tables, KeyedSink.keys, stored_eq, List.map_map]
  refine List.map_congr_left fun entries _ => congrArg Section.offsets ?_
  have hp := (StorageOrder.arrange_perm k.ordered (·.1) entries).map (·.1)
  refine Eq.trans ?_ (StoredKeys.bucketSizes_perm hp).symm
  rw [StoredKeys.bucketSizes, StorageOrder.spread_map, List.length_map, List.map_map]
  simp only [Entries.buckets_eq]
  apply List.map_congr_left
  intro bucket _
  simp

theorem body_eq (k : KeyedSink) : k.body = k.keys.body := by
  have hlengths : k.keys.instances.map List.length = k.stored.map List.length := by
    simp [KeyedSink.keys, Function.comp_def]
  have hcount : k.keys.instances.length = k.stored.length := by simp [KeyedSink.keys]
  simp only [body, StoredKeys.body, hlengths, hcount, all_keys, List.append_assoc]
  cases ho : k.ordered with
  | true => simp [KeyedSink.keys, ho]
  | false =>
    rw [bucketTables_eq]
    simp [KeyedSink.keys, ho]

end KeyedSink

/-! ## What a reader gets to see -/

/-- Looking up a key gives nothing if it was not inserted, and what was inserted last
otherwise. -/
def KeyedInstance.Serves (keyed : KeyedInstance) (finalOrder : List Area.Handle)
    (inserts : Entries) : Prop :=
  ∀ key, match latest? inserts key with
    | none => keyed.get key = .ok none
    | some .presence => keyed.get key = .ok (some .present)
    | some (.staged handle) =>
      ∃ j, keyed.get key = .ok (some (.value j)) ∧ finalOrder[j]? = some handle

/-- The entries of an instance have each inserted key once, in storage order. -/
def Lists (ordered : Bool) (inserts : Entries) (entries : List (Bytes × Slotted)) : Prop :=
  (∀ key, key ∈ entries.map (·.1) ↔ key ∈ inserts.map (·.1)) ∧ (entries.map (·.1)).Nodup ∧
    (entries.map (·.1)).Pairwise (StorageOrder.Before ordered (Bucket.count entries.length))

namespace KeyedSink

variable {k : KeyedSink} {history : List Entries}

theorem getElem_instances_keys (h : k.skeletons.toList = history.map latestEntries) {i : Nat}
    (hi : i < history.length) (hk : i < k.keys.instances.length) :
    k.keys.instances[i] =
      (StorageOrder.arrange k.ordered (·.1) (latestEntries history[i]).toList).map (·.1) := by
  simp [KeyedSink.keys, stored_eq_of_skeletons h]

theorem mem_getElem_instances_keys (h : k.skeletons.toList = history.map latestEntries) {i : Nat}
    (hi : i < history.length) (hk : i < k.keys.instances.length) {key : Bytes} :
    key ∈ k.keys.instances[i] ↔ ∃ slot, latest? history[i] key = some slot := by
  rw [getElem_instances_keys h hi hk, List.mem_map]
  constructor
  · rintro ⟨⟨_, slot⟩, he, rfl⟩
    exact ⟨slot, mem_toList_latestEntries.1 (StorageOrder.mem_arrange.1 he)⟩
  · rintro ⟨slot, hs⟩
    exact ⟨(key, slot), StorageOrder.mem_arrange.2 (mem_toList_latestEntries.2 hs), rfl⟩

theorem length_instances_keys (h : k.skeletons.toList = history.map latestEntries) :
    k.keys.instances.length = history.length := by
  simp [KeyedSink.keys, stored_eq_of_skeletons h]

/-- The entries of an instance have the keys that were inserted into it. -/
theorem lists_instanceAt (h : k.skeletons.toList = history.map latestEntries) {i : Nat}
    (hi : i < history.length) (hk : i < k.keys.instances.length) :
    Lists k.ordered history[i]
      (k.keys.instances[i].mapIdx fun j key =>
        (key, k.keys.view.slotted (k.keys.startOf i + j))) := by
  have hkeys : (k.keys.instances[i].mapIdx fun j key =>
      (key, k.keys.view.slotted (k.keys.startOf i + j))).map (·.1) = k.keys.instances[i] :=
    List.ext_getElem (by simp) fun j _ _ => by simp
  refine ⟨fun key => ?_, ?_, ?_⟩
  · rw [hkeys, mem_getElem_instances_keys h hi hk, ← latest?_isSome, Option.isSome_iff_exists]
  · rw [hkeys]
    exact k.arranged_keys.nodup (List.getElem_mem hk)
  · rw [hkeys, List.length_mapIdx, getElem_instances_keys h hi hk, List.length_map,
      StorageOrder.length_arrange]
    exact List.pairwise_map.2
      (StorageOrder.pairwise_arrange k.ordered _ (pairwise_toList_latestEntries _))

/-- The payload behind a key of a map has the place of the key. -/
theorem getElem?_finalOrder (h : k.skeletons.toList = history.map latestEntries)
    (hm : ∀ inserts ∈ history, ∀ key slot, (key, slot) ∈ inserts → ∃ handle, slot = .staged handle)
    {i : Nat} (hi : i < history.length) (hk : i < k.keys.instances.length) {key : Bytes}
    {handle : Area.Handle} (hl : latest? history[i] key = some (.staged handle)) :
    k.finish.finalOrder[k.keys.startOf i + k.keys.instances[i].idxOf key]? = some handle := by
  have hi' : i < k.stored.length := by simpa [stored_eq_of_skeletons h]
  have hstored : k.stored[i] =
      StorageOrder.arrange k.ordered (·.1) (latestEntries history[i]).toList := by
    simp [stored_eq_of_skeletons h]
  have hkeys : k.keys.instances[i] = k.stored[i].map (·.1) := by
    rw [getElem_instances_keys h hi hk, hstored]
  have hmem : (key, .staged handle) ∈ k.stored[i] := by
    rw [hstored, StorageOrder.mem_arrange, mem_toList_latestEntries, hl]
  have hnodup : (k.stored[i].map (·.1)).Nodup := by
    rw [← hkeys]
    exact k.arranged_keys.nodup (List.getElem_mem hk)
  obtain ⟨j, hj, hentry⟩ := List.mem_iff_getElem.1 hmem
  have hidx : k.keys.instances[i].idxOf key = j := by
    have := hnodup.idxOf_getElem j (by simpa using hj)
    rwa [List.getElem_map, hentry, ← hkeys] at this
  have hall : ∀ entry ∈ k.stored.flatten, (Slot.handle? entry.2).isSome := by
    intro entry he
    rw [stored_eq_of_skeletons h, List.mem_flatten] at he
    obtain ⟨_, hs, he⟩ := he
    obtain ⟨inserts, hin, rfl⟩ := List.mem_map.1 hs
    have hlast := mem_toList_latestEntries.1 (StorageOrder.mem_arrange.1 he)
    obtain ⟨handle, hslot⟩ := hm inserts hin _ _ (mem_of_latest? hlast)
    simp [hslot, Slot.handle?]
  have hstart : k.keys.startOf i = ((k.stored.map List.length).take i).sum := by
    simp [StoredKeys.startOf, KeyedSink.keys, Function.comp_def]
  show (k.stored.flatten.filterMap fun entry => entry.2.handle?)[_]? = _
  rw [getElem?_filterMap hall, hidx, hstart, Section.getElem?_flatten k.stored hi' hj, hentry]
  rfl

/-- An instance serves what was inserted into it. -/
theorem serves_instanceAt (h : k.skeletons.toList = history.map latestEntries)
    (hsuits : ∀ inserts ∈ history, ∀ key slot, (key, slot) ∈ inserts →
      (SinkCall.insert key slot).Suits k.set)
    (hsize : k.body.length < wordLimit) {i : Nat} (hi : i < history.length) :
    (k.keys.instanceAt i).Serves k.finish.finalOrder history[i] := by
  have hk : i < k.keys.instances.length := by rwa [length_instances_keys h]
  intro key
  have hget := StoredKeys.get_instanceAt k.arranged_keys key hk (by rwa [← body_eq])
  cases hl : latest? history[i] key with
  | none =>
    simp only
    rw [hget, if_neg]
    rw [mem_getElem_instances_keys h hi hk, hl]
    simp
  | some slot =>
    have hslot := hsuits _ (List.getElem_mem hi) _ _ (mem_of_latest? hl)
    rw [if_pos ((mem_getElem_instances_keys h hi hk).2 ⟨_, hl⟩)] at hget
    cases slot with
    | presence =>
      have hset : k.keys.view.set = true := hslot
      simpa [KeyedView.slotted, hset] using hget
    | staged handle =>
      have hset : k.keys.view.set = false := hslot
      have hmap : ∀ inserts ∈ history, ∀ key slot, (key, slot) ∈ inserts →
          ∃ handle, slot = .staged handle := by
        intro inserts hin key slot he
        have hs := hsuits inserts hin key slot he
        cases slot with
        | presence => exact absurd (hs.symm.trans hset) (by decide)
        | staged handle => exact ⟨handle, rfl⟩
      exact ⟨_, by simpa [KeyedView.slotted, hset] using hget,
        getElem?_finalOrder h hmap hi hk hl⟩

/-- Whatever the calls, the section at their end is opened as it was written. Its instances serve
what was inserted and list the inserted keys, one entry after the other. -/
theorem opened_section_serves_inserts (ordinal : Nat) (ordered set : Bool) (args : List String)
    (calls : List SinkCall) (hsuits : ∀ call ∈ calls, call.Suits set)
    (hsize : ((start ordinal ordered set args).run calls).body.length < wordLimit) :
    let sink := (start ordinal ordered set args).run calls
    sink.finish.bytes =
        Section.write (if ordered then .trie else .hash) ordinal args sink.body ∧
      ∃ view instances listed,
        Container.takeKeyed ordinal ordered (.start sink.body) =
            .ok (view, ⟨sink.body.length, []⟩) ∧
          view.instances = SinkCall.started calls ∧
          (List.range view.instances).mapM view.instance? = .ok (instances.map some) ∧
          List.Forall₂ (fun keyed inserts => keyed.Serves sink.finish.finalOrder inserts)
            instances (SinkCall.history calls) ∧
          instances.mapM KeyedInstance.entries = .ok listed ∧
          List.Forall₂ (Lists ordered) (SinkCall.history calls) listed ∧
          listed.flatten.map (·.2) = (List.range sink.finish.entries).map fun entry =>
            if set then .present else .value entry := by
  intro sink
  have h : sink.skeletons.toList = (SinkCall.history calls).map latestEntries :=
    skeletons_run ordinal ordered set args calls
  have hordered : sink.ordered = ordered := ordered_run _ _
  have hset : sink.set = set := set_run _ _
  have hlen : sink.keys.instances.length = (SinkCall.history calls).length :=
    length_instances_keys h
  have hview : sink.keys.view.instances = (SinkCall.history calls).length := hlen
  have hbody := sink.keys.reads_body ordinal (by rwa [← body_eq])
  have hinserts : ∀ inserts ∈ SinkCall.history calls, ∀ key slot, (key, slot) ∈ inserts →
      (SinkCall.insert key slot).Suits sink.set := fun inserts hin key slot hs =>
    hset ▸ SinkCall.suits_of_mem_history hsuits hin hs
  refine ⟨?_, sink.keys.view, (List.range sink.keys.instances.length).map sink.keys.instanceAt,
    sink.keys.listed, ?_, ?_, ?_, ?_, sink.keys.mapM_entries, ?_, ?_⟩
  · simp [sink, finish, start]
  · rw [body_eq, ← hordered]
    exact hbody.start
  · rw [hview, SinkCall.length_history]
  · rw [List.map_map]
    exact mapM_eq_ok fun i hi => sink.keys.instance?_view (List.mem_range.1 hi)
  · refine List.forall₂_iff_get.2 ⟨by simpa using hlen, ?_⟩
    intro i _ hi
    simpa using serves_instanceAt h hinserts hsize hi
  · refine List.forall₂_iff_get.2 ⟨by simpa [StoredKeys.listed] using hlen.symm, ?_⟩
    intro i hi hk
    rw [← hordered]
    simpa [StoredKeys.listed] using lists_instanceAt h hi (by simpa [StoredKeys.listed] using hk)
  · have hentries : sink.finish.entries = sink.keys.all.length := by
      rw [all_keys, List.length_map]
      rfl
    have hslotted : ∀ e, sink.keys.view.slotted e = if set then .present else .value e := by
      intro e
      rw [← hset]
      rfl
    rw [sink.keys.flatten_listed, hentries]
    exact List.ext_getElem (by simp) fun e _ _ => by simp [hslotted]

/-- A map without order, of which the first insert starts the first instance. -/
def sampleCalls : List SinkCall :=
  [.insert [0x62] (.staged 0), .insert [0x61] (.staged 1), .startInstance,
    .insert [0x61] (.staged 2), .insert [0x61] (.staged 3)]

theorem opened_section_serves_sample :
    (∀ call ∈ sampleCalls, call.Suits false) ∧
      ((start 7 false false []).run sampleCalls).body.length < wordLimit ∧
      ∃ view, Container.takeKeyed 7 false
          (.start ((start 7 false false []).run sampleCalls).body) =
          .ok (view, ⟨((start 7 false false []).run sampleCalls).body.length, []⟩) ∧
        view.instances = 2 := by
  have hsuits : ∀ call ∈ sampleCalls, call.Suits false := by simp [sampleCalls, SinkCall.Suits]
  have hsize : ((start 7 false false []).run sampleCalls).body.length < wordLimit := by
    decide +kernel
  obtain ⟨-, view, -, -, hopen, hinstances, -⟩ :=
    opened_section_serves_inserts 7 false false [] sampleCalls hsuits hsize
  exact ⟨hsuits, hsize, view, hopen, hinstances⟩

end KeyedSink

end RecordStore
