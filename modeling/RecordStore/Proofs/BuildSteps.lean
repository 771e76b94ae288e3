import RecordStore.Proofs.KeyedSections
import RecordStore.Proofs.RowsOfText
import RecordStore.Proofs.StagingAreas

/-!
# Steps of a build

What the steps of a build do to its output and its areas: records are written behind what was
there, the entries of sets and maps are collected in a sink, and the payloads of a map are staged
anew in the order of their keys.

## Main definitions

* `Directory.Untouched` — directories that are the same but for the files of some nodes.
* `SinkCall.ofInstances` — the calls that insert entries instance by instance.
* `LeadsTo` — whether an entry of a sink leads to the payload of a given entry.

## Main statements

* `Area.nameOf_inj` — areas of different nodes or roles have different names.
* `Build.foldlM_writeRecord` — records written into an area.
* `Build.collectMap_apply`, `Build.reorder_apply` — the payloads of a map, collected and reordered.
* `finish_ofInstances`, `finish_of_leadsTo` — the sections of what was collected.
-/

namespace RecordStore

/-! ## Names of areas -/

namespace Area

theorem toList_nameOf (ordinal : Nat) (role : String) :
    (nameOf ordinal role).toList = Nat.toDigits 10 ordinal ++ '-' :: role.toList := by
  have h : nameOf ordinal role = toString ordinal ++ "-" ++ role := rfl
  rw [h, Nat.toString_eq_ofList_toDigits]
  simp

theorem nameOf_inj {ordinal ordinal' : Nat} {role role' : String}
    (h : nameOf ordinal role = nameOf ordinal' role') : ordinal = ordinal' ∧ role = role' := by
  have hdigit (n : Nat) : ∀ c ∈ Nat.toDigits 10 n, (c != '-') = true := fun c hc => by
    have := Nat.isDigit_of_mem_toDigits (by decide) le_rfl hc
    rw [bne_iff_ne]
    rintro rfl
    simp at this
  have h := congrArg String.toList h
  rw [toList_nameOf, toList_nameOf] at h
  have htake := congrArg (List.takeWhile (· != '-')) h
  rw [List.takeWhile_append_of_pos (hdigit ordinal),
    List.takeWhile_append_of_pos (hdigit ordinal')] at htake
  have hdigits : Nat.toDigits 10 ordinal = Nat.toDigits 10 ordinal' := by simpa using htake
  refine ⟨?_, ?_⟩
  · have := congrArg (Nat.ofDigitChars 10 · 0) hdigits
    simpa using this
  · rw [hdigits, List.append_cancel_left_eq, List.cons.injEq] at h
    exact String.toList_inj.1 h.2

end Area

namespace Directory

/-- The files are the same but for those of nodes from a number up to another. -/
def Untouched (n m : Nat) (d d' : Directory) : Prop :=
  ∀ name, (∀ ordinal role, n ≤ ordinal → ordinal < m → name ≠ Area.nameOf ordinal role) →
    d'.files.lookup name = d.files.lookup name

namespace Untouched

variable {n m : Nat} {d d' d'' : Directory}

theorem refl (n m : Nat) (d : Directory) : Untouched n m d d := fun _ _ => rfl

theorem trans (h : Untouched n m d d') (h' : Untouched n m d' d'') : Untouched n m d d'' :=
  fun name hn => (h' name hn).trans (h name hn)

theorem mono {k l : Nat} (h : Untouched k l d d') (hn : n ≤ k) (hm : l ≤ m) :
    Untouched n m d d' :=
  fun name hname => h name fun ordinal role hk hl =>
    hname ordinal role (hn.trans hk) (hl.trans_le hm)

theorem of_agree {name role : String} (h : Agree name d d') (hname : name = Area.nameOf n role) :
    Untouched n (n + 1) d d' :=
  fun other hn => h other (hname ▸ hn n role le_rfl (Nat.lt_succ_self n))

/-- The areas of other nodes have their files still. -/
theorem lookup_nameOf (h : Untouched n m d d') {ordinal : Nat} (ho : ordinal < n ∨ m ≤ ordinal)
    (role : String) :
    d'.files.lookup (Area.nameOf ordinal role) = d.files.lookup (Area.nameOf ordinal role) := by
  refine h _ fun ordinal' role' hn hm he => ?_
  obtain ⟨rfl, -⟩ := Area.nameOf_inj he
  omega

end Untouched

end Directory

/-! ## Steps of a build -/

namespace Build

variable {α β : Type}

theorem bind_apply (step : Build α) (next : α → Build β) (p : Progress) :
    (step >>= next) p =
      match step p with
      | .ok a p => next a p
      | .error cause p => .error cause p := by
  show EStateM.bind step next p = _
  unfold EStateM.bind
  cases step p <;> rfl

theorem pure_apply (a : α) (p : Progress) : (pure a : Build α) p = .ok a p := rfl

theorem throw_apply (cause : BuildError) (p : Progress) :
    (throw cause : Build α) p = .error cause p := rfl

theorem emit_apply (bytes : Bytes) (p : Progress) :
    emit bytes p = .ok () { p with output := p.output.appendList bytes } := rfl

theorem skip_apply (count : Nat) (p : Progress) :
    skip count p = .ok () { p with skipped := p.skipped + count } := rfl

theorem onDirectory_apply (run : Directory → α × Directory) (p : Progress) :
    onDirectory run p = .ok (run p.directory).1 { p with directory := (run p.directory).2 } := rfl

theorem closeArea_apply (area : Area) (p : Progress) :
    closeArea area p = .ok () { p with directory := area.close p.directory } := rfl

theorem contents_apply (area : Area) (p : Progress) :
    contents area p =
      .ok ((area.contents p.directory).1, (area.contents p.directory).2.1)
        { p with directory := (area.contents p.directory).2.2 } := rfl

open Area (Continues)

theorem foldlM_writeRecord (delim : Bytes) {area : Area} {p : Progress} {log : Bytes}
    (h : area.Keeps p.directory log) (texts : List Bytes) :
    ∃ area' d, texts.foldlM (writeRecord delim) area p = .ok area' { p with directory := d } ∧
      area'.Keeps d (log ++ staged delim texts) ∧ Continues area p.directory area' d := by
  induction texts generalizing area p log with
  | nil => exact ⟨area, p.directory, rfl, by simpa [staged] using h, .refl _ _⟩
  | cons text texts ih =>
    obtain ⟨h₁, hc₁, -⟩ := Area.keeps_write h text
    obtain ⟨h₂, hc₂, -⟩ := Area.keeps_write h₁ delim
    obtain ⟨area', d, hr, hk, hc⟩ := ih (p := { p with directory := _ }) h₂
    refine ⟨area', d, ?_, by simpa [staged] using hk, (hc₁.trans hc₂).trans hc⟩
    rw [List.foldlM_cons, bind_apply]
    exact hr

theorem checkInstances_apply {schema : Schema} {expected actual : Nat} (p : Progress) :
    checkInstances schema expected actual p =
      if expected = actual then .ok () p
      else .error (.instanceMismatch schema.ordinal expected actual) p := by
  unfold checkInstances
  split <;> rfl

end Build

/-! ## Keyed nodes -/

def SinkCall.ofInstances (instances : List Entries) : List SinkCall :=
  instances.flatMap fun entries =>
    .startInstance :: entries.map fun entry => .insert entry.1 entry.2

theorem SinkCall.history_ofInstances (instances : List Entries) :
    history (ofInstances instances) = instances := by
  have step (front : List Entries) (entries inserted : Entries) :
      (entries.map fun entry => insert entry.1 entry.2).foldl record (front ++ [inserted]) =
        front ++ [inserted ++ entries] := by
    induction entries generalizing inserted with
    | nil => simp
    | cons entry entries ih =>
      rw [List.map_cons, List.foldl_cons]
      simp only [record, List.getLast?_concat, List.dropLast_concat]
      rw [ih, List.append_assoc]
      rfl
  induction instances using List.reverseRecOn with
  | nil => rfl
  | append_singleton instances entries ih =>
    rw [history, ofInstances, List.flatMap_append, List.foldl_append, ← ofInstances, ← history,
      ih, List.flatMap_singleton, List.foldl_cons]
    exact step instances entries []

theorem collectSet_eq (sink : KeyedSink) (instances : List (List Bytes)) :
    collectSet sink instances =
      sink.run (SinkCall.ofInstances (instances.map fun keys =>
        keys.map fun key => (key, .presence))) := by
  induction instances generalizing sink with
  | nil => rfl
  | cons keys instances ih =>
    rw [collectSet, List.foldl_cons, ← collectSet, ih]
    simp only [SinkCall.ofInstances, List.map_cons, List.flatMap_cons, KeyedSink.run,
      List.foldl_append, List.foldl_cons, List.map_map, List.foldl_map]
    rfl

/-- The section at the end of a sink has the keys of each instance in storage order. -/
theorem finish_ofInstances (keys : KeySpec) (ordinal : Nat) (set : Bool)
    (instances : List Entries) :
    let sink := (KeyedSink.start ordinal keys.ordered set keys.args).run
      (SinkCall.ofInstances instances)
    sink.stored = instances.map keys.arranged ∧
      sink.finish.bytes = Section.write (Container.keyedTag keys) ordinal keys.args
        (StoredKeys.body
          ⟨set, keys.ordered, instances.map fun entries => (keys.arranged entries).map (·.1)⟩) := by
  intro sink
  have h : sink.skeletons.toList = instances.map latestEntries := by
    have := KeyedSink.skeletons_run ordinal keys.ordered set keys.args
      (SinkCall.ofInstances instances)
    rwa [SinkCall.history_ofInstances] at this
  have hordered : sink.ordered = keys.ordered := KeyedSink.ordered_run _ _
  have hset : sink.set = set := KeyedSink.set_run _ _
  have hordinal : sink.ordinal = ordinal := KeyedSink.ordinal_run _ _
  have hargs : sink.args = keys.args := KeyedSink.args_run _ _
  have hstored : sink.stored = instances.map keys.arranged := by
    rw [KeyedSink.stored_eq_of_skeletons h, hordered]
    rfl
  refine ⟨hstored, ?_⟩
  rw [KeyedSink.finish, KeyedSink.body_eq, hordered, hordinal, hargs, KeyedSink.keys, hstored,
    hordered, hset, List.map_map]
  rfl

/-! ## Staging the payloads of a map -/

def LeadsTo (payloads : List Bytes) (entry : Bytes × Bytes) (kept : Bytes × Slot) : Prop :=
  kept.1 = entry.1 ∧ ∃ handle, kept.2 = .staged handle ∧ payloads[handle]? = some entry.2

theorem LeadsTo.append {payloads : List Bytes} {entry : Bytes × Bytes} {kept : Bytes × Slot}
    (h : LeadsTo payloads entry kept) (more : List Bytes) :
    LeadsTo (payloads ++ more) entry kept := by
  obtain ⟨hkey, handle, hslot, hp⟩ := h
  exact ⟨hkey, handle, hslot, by
    rw [List.getElem?_append_left (List.getElem?_eq_some_iff.1 hp).1, hp]⟩

def payloadOf (payloads : List Bytes) (slot : Slot) : Bytes :=
  (slot.handle?.bind (payloads[·]?)).getD []

theorem LeadsTo.eq {payloads : List Bytes} {entry : Bytes × Bytes} {kept : Bytes × Slot}
    (h : LeadsTo payloads entry kept) : (kept.1, payloadOf payloads kept.2) = entry := by
  obtain ⟨hkey, handle, hslot, hp⟩ := h
  rw [hkey, hslot, payloadOf, Slot.handle?, Option.bind_some, hp, Option.getD_some]

theorem LeadsTo.arranged_eq (keys : KeySpec) {payloads : List Bytes}
    {given : List (List (Bytes × Bytes))} {history : List Entries}
    (h : List.Forall₂ (List.Forall₂ (LeadsTo payloads)) given history) :
    (history.map keys.arranged).map
      (List.map fun kept => (kept.1, payloadOf payloads kept.2)) = given.map keys.arranged := by
  have hgiven : history.map (List.map fun kept => (kept.1, payloadOf payloads kept.2)) = given := by
    induction h with
    | nil => rfl
    | cons hentries _ ih =>
      rw [List.map_cons, ih]
      congr 1
      induction hentries with
      | nil => rfl
      | cons hentry _ ih => rw [List.map_cons, hentry.eq, ih]
  rw [List.map_map, ← hgiven, List.map_map]
  exact List.map_congr_left fun kept _ => (keys.arranged_map (payloadOf payloads) kept).symm

theorem LeadsTo.staged_of_mem {payloads : List Bytes} {given : List (List (Bytes × Bytes))}
    {history : List Entries} (h : List.Forall₂ (List.Forall₂ (LeadsTo payloads)) given history)
    {entries : Entries} (he : entries ∈ history) {kept : Bytes × Slot} (hk : kept ∈ entries) :
    ∃ handle, kept.2 = .staged handle ∧ handle < payloads.length := by
  obtain ⟨i, hi, rfl⟩ := List.mem_iff_getElem.1 he
  have hentries := h.get (by rwa [h.length_eq]) hi
  obtain ⟨j, hj, rfl⟩ := List.mem_iff_getElem.1 hk
  obtain ⟨-, handle, hslot, hp⟩ := hentries.get (by rwa [hentries.length_eq]) hj
  exact ⟨handle, hslot, (List.getElem?_eq_some_iff.1 hp).1⟩

/-- The handles of staged entries lead to their payloads. -/
theorem map_handles {payloads : List Bytes} {stored : Entries}
    (h : ∀ kept ∈ stored, ∃ handle, kept.2 = .staged handle ∧ handle < payloads.length) :
    (stored.filterMap fun kept => kept.2.handle?).map (fun handle => payloads[handle]?.getD []) =
        stored.map (fun kept => payloadOf payloads kept.2) ∧
      ∀ handle ∈ stored.filterMap fun kept => kept.2.handle?, handle < payloads.length := by
  induction stored with
  | nil => simp
  | cons kept stored ih =>
    obtain ⟨handle, hslot, hlt⟩ := h kept (by simp)
    obtain ⟨hmap, hall⟩ := ih fun kept hm => h kept (by simp [hm])
    have hhandle : kept.2.handle? = some handle := by rw [hslot, Slot.handle?]
    rw [List.filterMap_cons_some (f := fun kept : Bytes × Slot => kept.2.handle?) hhandle]
    refine ⟨?_, List.forall_mem_cons.2 ⟨hlt, hall⟩⟩
    rw [List.map_cons, List.map_cons, hmap, payloadOf, hhandle, Option.bind_some]

/-- The section at the end of a sink of payloads, and the order in which they are staged anew. -/
theorem finish_of_leadsTo (keys : KeySpec) (ordinal : Nat) {payloads : List Bytes}
    {given : List (List (Bytes × Bytes))} {history : List Entries}
    (h : List.Forall₂ (List.Forall₂ (LeadsTo payloads)) given history) :
    let built := ((KeyedSink.start ordinal keys.ordered false keys.args).run
      (SinkCall.ofInstances history)).finish
    built.bytes = Section.write (Container.keyedTag keys) ordinal keys.args
        (StoredKeys.body
          ⟨false, keys.ordered, given.map fun entries => (keys.arranged entries).map (·.1)⟩) ∧
      built.finalOrder.map (fun handle => payloads[handle]?.getD []) =
        (given.map keys.arranged).flatten.map (·.2) ∧
      (∀ handle ∈ built.finalOrder, handle < payloads.length) ∧
      built.entries = (given.map keys.arranged).flatten.length := by
  intro built
  obtain ⟨hstored, hbytes⟩ := finish_ofInstances keys ordinal false history
  have harranged := LeadsTo.arranged_eq keys h
  have hflatten : (history.map keys.arranged).flatten.map
      (fun kept => (kept.1, payloadOf payloads kept.2)) = (given.map keys.arranged).flatten := by
    rw [← harranged, List.map_flatten]
  have hall : ∀ kept ∈ (history.map keys.arranged).flatten,
      ∃ handle, kept.2 = .staged handle ∧ handle < payloads.length := by
    intro kept hm
    obtain ⟨arranged, ha, hm⟩ := List.mem_flatten.1 hm
    obtain ⟨entries, he, rfl⟩ := List.mem_map.1 ha
    exact LeadsTo.staged_of_mem h he (KeySpec.mem_of_mem_arranged hm)
  obtain ⟨hmap, hlt⟩ := map_handles hall
  have horder : built.finalOrder =
      (history.map keys.arranged).flatten.filterMap fun kept => kept.2.handle? :=
    congrArg (fun stored : List Entries =>
      stored.flatten.filterMap fun kept : Bytes × Slot => kept.2.handle?) hstored
  have hkeys : (history.map fun entries => (keys.arranged entries).map (·.1)) =
      given.map fun entries => (keys.arranged entries).map (·.1) := by
    have := congrArg (List.map (List.map (·.1))) harranged
    simpa [Function.comp_def] using this
  refine ⟨hkeys ▸ hbytes, ?_, horder ▸ hlt, ?_⟩
  · rw [horder, hmap, ← hflatten, List.map_map]
    rfl
  · rw [← hflatten, List.length_map]
    exact congrArg (fun stored : List Entries => stored.flatten.length) hstored

namespace Build

open Area (Continues)

theorem append_apply (area : Area) (payload : Bytes) (p : Progress) :
    append area payload p =
      .ok ((area.append payload p.directory).1, (area.append payload p.directory).2.1)
        { p with directory := (area.append payload p.directory).2.2 } := rfl

theorem read_apply {area : Area} {handle : Area.Handle} {payload : Bytes} {p : Progress}
    (h : (area.read handle p.directory).1 = .ok payload) :
    read area handle p =
      .ok (payload, (area.read handle p.directory).2.1)
        { p with directory := (area.read handle p.directory).2.2 } := by
  unfold read
  rw [bind_apply, onDirectory_apply]
  simp only [h]
  rfl

theorem collect_entries (sink : KeyedSink) {area : Area} {p : Progress} {payloads : List Bytes}
    (h : area.Stages p.directory payloads) (entries : List (Bytes × Bytes)) :
    ∃ inserts area' d,
      (entries.foldlM
        (fun (sink, area) (key, payload) => do
          let (handle, area) ← append area payload
          return (sink.insert key (.staged handle), area))
        (sink, area) : Build (KeyedSink × Area)) p =
        .ok (sink.run (inserts.map fun entry => .insert entry.1 entry.2), area')
          { p with directory := d } ∧
      area'.Stages d (payloads ++ entries.map (·.2)) ∧ Continues area p.directory area' d ∧
      List.Forall₂ (LeadsTo (payloads ++ entries.map (·.2))) entries inserts := by
  induction entries generalizing sink area p payloads with
  | nil => exact ⟨[], area, p.directory, rfl, by simpa using h, .refl _ _, .nil⟩
  | cons entry entries ih =>
    obtain ⟨key, payload⟩ := entry
    obtain ⟨hhandle, hstages, hcont⟩ := Area.stages_append h payload
    obtain ⟨inserts, area', d, hr, hs, hc, hl⟩ := ih
      (sink.insert key (.staged payloads.length)) (p := { p with directory := _ }) hstages
    rw [List.append_assoc] at hs hl
    refine ⟨(key, .staged payloads.length) :: inserts, area', d, ?_, hs, hcont.trans hc,
      .cons ⟨rfl, payloads.length, rfl, by simp⟩ hl⟩
    rw [List.foldlM_cons]
    simp only [bind_apply, append_apply, hhandle]
    exact hr

theorem collectMap_apply (sink : KeyedSink) {area : Area} {p : Progress} {payloads : List Bytes}
    (h : area.Stages p.directory payloads) (instances : List (List (Bytes × Bytes))) :
    ∃ history area' d,
      collectMap sink area instances p =
        .ok (sink.run (SinkCall.ofInstances history), area') { p with directory := d } ∧
      area'.Stages d (payloads ++ instances.flatten.map (·.2)) ∧
      Continues area p.directory area' d ∧
      List.Forall₂ (List.Forall₂ (LeadsTo (payloads ++ instances.flatten.map (·.2))))
        instances history := by
  induction instances generalizing sink area p payloads with
  | nil => exact ⟨[], area, p.directory, rfl, by simpa using h, .refl _ _, .nil⟩
  | cons entries instances ih =>
    obtain ⟨inserts, area₁, d₁, hr₁, hs₁, hc₁, hl₁⟩ := collect_entries sink.startInstance h entries
    obtain ⟨history, area₂, d₂, hr₂, hs₂, hc₂, hl₂⟩ := ih
      (sink.startInstance.run (inserts.map fun entry => .insert entry.1 entry.2))
      (p := { p with directory := d₁ }) hs₁
    rw [List.append_assoc] at hs₂ hl₂
    refine ⟨inserts :: history, area₂, d₂, ?_, by simpa using hs₂, hc₁.trans hc₂, .cons ?_ ?_⟩
    · have hrun : sink.run (SinkCall.ofInstances (inserts :: history)) =
          (sink.startInstance.run (inserts.map fun entry => .insert entry.1 entry.2)).run
            (SinkCall.ofInstances history) := by
        simp only [SinkCall.ofInstances, List.flatMap_cons, KeyedSink.run, List.foldl_append,
          List.foldl_cons]
        rfl
      rw [collectMap, List.foldlM_cons, hrun]
      simp only [bind_apply, hr₁]
      exact hr₂
    · rw [List.flatten_cons, List.map_append, ← List.append_assoc]
      exact hl₁.imp fun _ _ hlead => hlead.append _
    · simpa using hl₂

theorem reorder_apply (delim : Bytes) {source target : Area} {p : Progress}
    {payloads : List Bytes} {log : Bytes} (hs : source.Stages p.directory payloads)
    (ht : target.Keeps p.directory log) (hne : source.name ≠ target.name)
    {order : List Area.Handle} (ho : ∀ handle ∈ order, handle < payloads.length) :
    ∃ source' target' d,
      reorder order delim source target p = .ok (source', target') { p with directory := d } ∧
      target'.Keeps d (log ++ staged delim (order.map fun handle => payloads[handle]?.getD [])) ∧
      source'.name = source.name ∧ target'.name = target.name ∧
      ∀ name, name ≠ source.name → name ≠ target.name →
        d.files.lookup name = p.directory.files.lookup name := by
  induction order generalizing source target p log with
  | nil =>
    exact ⟨source, target, p.directory, rfl, by simpa [staged] using ht, rfl, rfl,
      fun _ _ _ => rfl⟩
  | cons handle order ih =>
    have hlt := ho handle (by simp)
    have hget := List.getElem?_eq_getElem hlt
    obtain ⟨hread, hs₁, hc₁⟩ := Area.read_eq hs hget
    have ht₁ := ht.of_agree (hc₁.agree _ hne.symm)
    obtain ⟨ht₂, hc₂, -⟩ := Area.keeps_write ht₁ payloads[handle]
    obtain ⟨ht₃, hc₃, -⟩ := Area.keeps_write ht₂ delim
    have hc := hc₂.trans hc₃
    have hs₃ : (source.read handle p.directory).2.1.Stages _ payloads :=
      ⟨hs₁.keeps.of_agree (hc.agree _ (by rwa [hc₁.name])), hs₁.length, hs₁.ranges⟩
    obtain ⟨source', target', d, hr, hk, hsource, htarget, hframe⟩ :=
      ih (p := { p with directory := _ }) hs₃ ht₃ (by rwa [hc₁.name, hc.name])
        fun handle' hm => ho handle' (by simp [hm])
    refine ⟨source', target', d, ?_, ?_, hsource.trans hc₁.name, htarget.trans hc.name, ?_⟩
    · rw [reorder, List.foldlM_cons]
      simp only [bind_apply, read_apply hread]
      exact hr
    · simpa [staged, hget] using hk
    · intro name hsn htn
      rw [hframe name (by rwa [hc₁.name]) (by rwa [hc.name]), hc.agree name htn,
        hc₁.agree name hsn]

end Build

end RecordStore
