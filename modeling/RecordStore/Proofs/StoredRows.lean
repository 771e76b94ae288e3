import RecordStore.Proofs.Bodies
import RecordStore.Proofs.FlatValues
import RecordStore.Proofs.StoredKeys

/-!
# Rows of a schema

The values of the instances of a node, in order, are its rows. They fix the sections of the node
and of all nodes below it: the rows of a child are the parts of the rows of its parent, one after
the other.

## Main definitions

* `Schema.Holds` — whether a value can be a row of a schema.
* `Schema.sections`, `Schema.container` — the sections of rows, and what they are opened as.
* `Schema.Storable` — whether the numbers of the section headers fit their fields.

## Main statements

* `Schema.reads_sections` — the sections of rows are opened as their container.
* `Schema.read_container` — the container gives the rows back.
-/

namespace RecordStore

/-! ## Parts of values -/

namespace Value

def items : Value → List Value
  | seq items => items
  | _ => []

def entries : Value → List (Value × Option Value)
  | keyed entries => entries
  | _ => []

def first : Value → Value
  | pair first _ => first
  | value => value

def second : Value → Value
  | pair _ second => second
  | value => value

def stored : Value → Bytes
  | flat value => value.stored
  | _ => []

end Value

/-! ## Rows -/

/-- Whether the keys of entries are of the form of their node and stand in storage order. -/
def KeySpec.Holds (keys : KeySpec) (entries : List (Value × Option Value)) : Prop :=
  (∀ entry ∈ entries, ∃ key, entry.1 = .flat key ∧ keys.node.layout.Holds key) ∧
    ∃ sorted : List Bytes, sorted.Pairwise (fun a b => compare a b = .lt) ∧
      entries.map (·.1.stored) = StorageOrder.arrange keys.ordered id sorted

namespace Schema

def Holds : Schema → Value → Prop
  | flat node, .flat value => node.layout.Holds value
  | sequence _ element _ _, .seq items => ∀ item ∈ items, element.Holds item
  | set _ keys, .keyed entries => keys.Holds entries ∧ ∀ entry ∈ entries, entry.2 = none
  | map _ keys value _, .keyed entries =>
    keys.Holds entries ∧ ∀ entry ∈ entries, ∃ item, entry.2 = some item ∧ value.Holds item
  | pair _ first second _, .pair left right => first.Holds left ∧ second.Holds right
  | _, _ => False

end Schema

def KeySpec.storedKeys (keys : KeySpec) (set : Bool) (rows : List Value) : StoredKeys where
  set := set
  ordered := keys.ordered
  instances := rows.map fun row => row.entries.map (·.1.stored)

def FlatNode.section (node : FlatNode) (rows : List Value) : Bytes :=
  match node.layout with
  | .structs _ =>
    Section.write .ragged node.label.ordinal []
      (Section.raggedBody node.layout.width (rows.map Value.stored))
  | _ =>
    Section.write .flat node.label.ordinal []
      (Section.flatBody node.layout.width (rows.map Value.stored))

def FlatNode.container (node : FlatNode) (rows : List Value) : Container :=
  let data := (rows.map Value.stored).flatten.toArray
  match node.layout with
  | .structs _ =>
    .ragged node ""
      { width := node.layout.width
        instances := rows.length
        offsets :=
          (Section.offsets (rows.map fun row => row.stored.length / node.layout.width)).toArray
        data }
  | _ => .flat node "" { width := node.layout.width, count := rows.length, data }

namespace Schema

def payloads (row : Value) : List Value := row.entries.filterMap (·.2)

/-- The sections of rows, with those of all nodes below. -/
def sections : Schema → List Value → Bytes
  | flat node, rows => node.section rows
  | sequence label element _ args, rows =>
    Section.write .shape label.ordinal args
        (Section.shapeBody (rows.map fun row => row.items.length)) ++
      element.sections (rows.flatMap Value.items)
  | set label keys, rows =>
    Section.write (Container.keyedTag keys) label.ordinal keys.args
      (keys.storedKeys true rows).body
  | map label keys value _, rows =>
    Section.write (Container.keyedTag keys) label.ordinal keys.args
        (keys.storedKeys false rows).body ++
      value.sections (rows.flatMap payloads)
  | pair label first second _, rows =>
    Section.write .pair label.ordinal [] (Section.pairBody rows.length) ++
      (first.sections (rows.map Value.first) ++ second.sections (rows.map Value.second))

/-- What the sections of rows are opened as. -/
def container : Schema → List Value → Container
  | flat node, rows => node.container rows
  | sequence label element _ args, rows =>
    .sequence label (",".intercalate args)
      { instances := rows.length
        offsets := (Section.offsets (rows.map fun row => row.items.length)).toArray }
      (element.container (rows.flatMap Value.items))
  | set label keys, rows =>
    .set label keys (",".intercalate keys.args) (keys.storedKeys true rows).view
  | map label keys value _, rows =>
    .map label keys (",".intercalate keys.args) (keys.storedKeys false rows).view
      (value.container (rows.flatMap payloads))
  | pair label first second _, rows =>
    .pair label "" rows.length (first.container (rows.map Value.first))
      (second.container (rows.map Value.second))

/-! ## Sizes -/

end Schema

def Label.Storable (label : Label) (args : List String) : Prop :=
  label.ordinal < 2 ^ 32 ∧ (Bytes.ofText (",".intercalate args)).length < 2 ^ 16

/-- Whether values of a flat node take bytes, so that runs of them can be counted. -/
def FlatNode.Countable (node : FlatNode) : Prop := node.layout.isHollow = false

namespace Schema

/-- Whether the ordinals and arguments of all sections fit, and all values take bytes. -/
def Addressed : Schema → Prop
  | flat node => node.label.Storable [] ∧ node.Countable
  | sequence label element _ args => label.Storable args ∧ element.Addressed
  | set label keys => label.Storable keys.args ∧ keys.node.Countable
  | map label keys value _ => label.Storable keys.args ∧ keys.node.Countable ∧ value.Addressed
  | pair label first second _ => label.Storable [] ∧ first.Addressed ∧ second.Addressed

def Storable : Schema → Prop
  | flat node =>
    node.label.Storable [] ∧ node.layout.width < 2 ^ 32 ∧ node.Countable
  | sequence label element _ args => label.Storable args ∧ element.Storable
  | set label keys => label.Storable keys.args ∧ keys.node.Countable
  | map label keys value _ => label.Storable keys.args ∧ keys.node.Countable ∧ value.Storable
  | pair label first second _ => label.Storable [] ∧ first.Storable ∧ second.Storable

theorem Storable.addressed {s : Schema} (h : s.Storable) : s.Addressed := by
  induction s with
  | flat node => exact ⟨h.1, h.2.2⟩
  | sequence label element sep args ih => exact ⟨h.1, ih h.2⟩
  | set label keys => exact h
  | map label keys value sep ih => exact ⟨h.1, h.2.1, ih h.2.2⟩
  | pair label first second sep ih₁ ih₂ => exact ⟨h.1, ih₁ h.2.1, ih₂ h.2.2⟩

/-! ## Opening -/

theorem instances_container (s : Schema) (rows : List Value) :
    (s.container rows).instances = rows.length := by
  cases s with
  | flat node =>
    simp only [container, FlatNode.container]
    split <;> rfl
  | sequence => rfl
  | set => simp [container, Container.instances, StoredKeys.view, KeySpec.storedKeys]
  | map => simp [container, Container.instances, StoredKeys.view, KeySpec.storedKeys]
  | pair => rfl

/-- A section whose body is read as a view, with what is read behind it. -/
theorem reads_section {α β : Type} {label : Label} {args : List String}
    (hs : label.Storable args) {tag : Section.Tag} {body : Bytes} (hb : body.length < wordLimit)
    {read : Take α} {view : α} (hv : Take.Reads read body view)
    {next : Container.RawSection → Take β} {back : Bytes} {b : β}
    (hn : ∀ raw : Container.RawSection, raw.args = ",".intercalate args →
      Container.readBody label.ordinal tag raw read = .ok view → Take.Reads (next raw) back b) :
    Take.Reads (Container.takeSection label.ordinal >>= next)
      (Section.write tag label.ordinal args body ++ back) b :=
  (Container.reads_takeSection tag hs.1 hs.2 hb).bind
    (hn _ rfl (Container.readBody_eq_ok label.ordinal rfl hv))

theorem length_body_le (tag : Section.Tag) (ordinal : Nat) (args : List String) (body : Bytes) :
    body.length ≤ (Section.write tag ordinal args body).length := by
  simp only [Section.write, List.length_append]
  omega

/-! ## The parts of rows -/

theorem Holds.flat_iff {node : FlatNode} {row : Value} :
    (flat node).Holds row ↔ ∃ value, row = .flat value ∧ node.layout.Holds value := by
  cases row <;> simp [Holds]

theorem Holds.sequence_iff {label : Label} {element : Schema} {sep : Bytes} {args : List String}
    {row : Value} :
    (sequence label element sep args).Holds row ↔
      ∃ items, row = .seq items ∧ ∀ item ∈ items, element.Holds item := by
  cases row <;> simp [Holds]

theorem Holds.set_iff {label : Label} {keys : KeySpec} {row : Value} :
    (set label keys).Holds row ↔
      ∃ entries, row = .keyed entries ∧ keys.Holds entries ∧ ∀ entry ∈ entries, entry.2 = none := by
  cases row <;> simp [Holds]

theorem Holds.map_iff {label : Label} {keys : KeySpec} {value : Schema} {sep : Bytes}
    {row : Value} :
    (map label keys value sep).Holds row ↔
      ∃ entries, row = .keyed entries ∧ keys.Holds entries ∧
        ∀ entry ∈ entries, ∃ item, entry.2 = some item ∧ value.Holds item := by
  cases row <;> simp [Holds]

theorem Holds.pair_iff {label : Label} {first second : Schema} {sep : Bytes} {row : Value} :
    (pair label first second sep).Holds row ↔
      ∃ left right, row = .pair left right ∧ first.Holds left ∧ second.Holds right := by
  cases row <;> simp [Holds]

section

variable {rows : List Value}

/-- What is stored of a row of a flat node is stored of a value of its form. -/
theorem exists_stored {node : FlatNode} (hr : ∀ row ∈ rows, (flat node).Holds row)
    {bytes : Bytes} (hb : bytes ∈ rows.map Value.stored) :
    ∃ value : FlatValue, node.layout.Holds value ∧ bytes = value.stored := by
  obtain ⟨row, hm, rfl⟩ := List.mem_map.1 hb
  obtain ⟨value, rfl, hv⟩ := Holds.flat_iff.1 (hr row hm)
  exact ⟨value, hv, rfl⟩

theorem length_of_mem_stored {node : FlatNode} (hr : ∀ row ∈ rows, (flat node).Holds row)
    (hl : ∀ shape, node.layout ≠ .structs shape) :
    ∀ bytes ∈ rows.map Value.stored, bytes.length = node.layout.width := by
  intro bytes hb
  obtain ⟨value, hv, rfl⟩ := exists_stored hr hb
  rw [FlatNode.length_stored hv, FlatNode.count_eq_one hl hv, Nat.mul_one]

theorem holds_items {label : Label} {element : Schema} {sep : Bytes} {args : List String}
    (hr : ∀ row ∈ rows, (sequence label element sep args).Holds row) :
    ∀ item ∈ rows.flatMap Value.items, element.Holds item := by
  intro item hi
  obtain ⟨row, hm, hi⟩ := List.mem_flatMap.1 hi
  obtain ⟨items, rfl, hitems⟩ := Holds.sequence_iff.1 (hr row hm)
  exact hitems item hi

theorem holds_payloads {label : Label} {keys : KeySpec} {value : Schema} {sep : Bytes}
    (hr : ∀ row ∈ rows, (map label keys value sep).Holds row) :
    ∀ item ∈ rows.flatMap payloads, value.Holds item := by
  intro item hi
  obtain ⟨row, hm, hi⟩ := List.mem_flatMap.1 hi
  obtain ⟨entries, rfl, -, hentries⟩ := Holds.map_iff.1 (hr row hm)
  obtain ⟨entry, he, hsome⟩ := List.mem_filterMap.1 hi
  obtain ⟨item', hitem, hv⟩ := hentries entry he
  rw [hitem, Option.some.injEq] at hsome
  exact hsome ▸ hv

theorem length_payloads {label : Label} {keys : KeySpec} {value : Schema} {sep : Bytes}
    {row : Value} (hr : (map label keys value sep).Holds row) :
    (payloads row).length = row.entries.length := by
  obtain ⟨entries, rfl, -, hentries⟩ := Holds.map_iff.1 hr
  apply List.filterMap_length_eq_length.2
  intro entry he
  obtain ⟨item, hitem, -⟩ := hentries entry he
  simp [hitem]

theorem holds_first {label : Label} {first second : Schema} {sep : Bytes}
    (hr : ∀ row ∈ rows, (pair label first second sep).Holds row) :
    ∀ row ∈ rows.map Value.first, first.Holds row := by
  intro row hm
  obtain ⟨pair, hp, rfl⟩ := List.mem_map.1 hm
  obtain ⟨left, right, rfl, hl, -⟩ := Holds.pair_iff.1 (hr pair hp)
  exact hl

theorem holds_second {label : Label} {first second : Schema} {sep : Bytes}
    (hr : ∀ row ∈ rows, (pair label first second sep).Holds row) :
    ∀ row ∈ rows.map Value.second, second.Holds row := by
  intro row hm
  obtain ⟨pair, hp, rfl⟩ := List.mem_map.1 hm
  obtain ⟨left, right, rfl, -, hr⟩ := Holds.pair_iff.1 (hr pair hp)
  exact hr

theorem length_stored_le (node : FlatNode) (rows : List Value) :
    (rows.map Value.stored).flatten.length ≤ (node.section rows).length := by
  obtain ⟨label, layout⟩ := node
  cases layout <;>
    simp only [FlatNode.section, Section.write, Section.raggedBody, Section.flatBody,
      List.length_append] <;>
    omega

/-- Every instance takes a byte at least. -/
theorem length_le_length_sections {s : Schema} (hs : s.Addressed)
    (hr : ∀ row ∈ rows, s.Holds row) : rows.length ≤ (s.sections rows).length := by
  induction s generalizing rows with
  | flat node =>
    have hpos := Layout.width_pos hs.2
    have hfixed := length_of_mem_stored hr
    obtain ⟨label, layout⟩ := node
    cases layout with
    | structs shape =>
      simp only [sections, FlatNode.section, Section.write, Section.raggedBody, List.length_append,
        Section.length_numbers, Section.length_offsets, List.length_map]
      omega
    | _ =>
      simp only [sections, FlatNode.section, Section.write, Section.flatBody, List.length_append,
        List.length_flatten, List.map_eq_replicate_iff.2 (hfixed (by simp)),
        List.sum_replicate_nat, List.length_map]
      have := Nat.le_mul_of_pos_right rows.length hpos
      simp only at this
      omega
  | sequence label element sep args ih =>
    simp only [sections, Section.write, Section.shapeBody, List.length_append,
      Section.length_numbers, Section.length_offsets, List.length_map]
    omega
  | set label keys =>
    simp only [sections, Section.write, StoredKeys.body, KeySpec.storedKeys, List.length_append,
      Section.length_numbers, Section.length_offsets, List.length_map]
    omega
  | map label keys value sep ih =>
    simp only [sections, Section.write, StoredKeys.body, KeySpec.storedKeys, List.length_append,
      Section.length_numbers, Section.length_offsets, List.length_map]
    omega
  | pair label first second sep ih₁ ih₂ =>
    have := ih₁ hs.2.1 (holds_first hr)
    rw [List.length_map] at this
    simp only [sections, List.length_append]
    omega

/-! ## Opening -/

theorem reads_flat {node : FlatNode} (hs : (flat node).Storable)
    (hr : ∀ row ∈ rows, (flat node).Holds row) (hl : (node.section rows).length < wordLimit) :
    Take.Reads (Container.takeNode (flat node)) (node.section rows) (node.container rows) := by
  have hrows := Nat.lt_of_le_of_lt (length_le_length_sections hs.addressed hr) hl
  have hfixed := length_of_mem_stored hr
  obtain ⟨hlabel, hwidth, hcount⟩ := hs
  have hpos := Layout.width_pos hcount
  rw [← List.append_nil (node.section rows)]
  obtain ⟨label, layout⟩ := node
  cases layout with
  | structs shape =>
    have hdvd : ∀ run ∈ rows.map Value.stored, shape.width ∣ run.length := by
      intro run hm
      obtain ⟨value, hv, rfl⟩ := exists_stored hr hm
      exact Dvd.intro _ (FlatNode.length_stored hv).symm
    have hbody := Nat.lt_of_le_of_lt (length_body_le ..) hl
    refine reads_section hlabel hbody
      (@Container.reads_raggedBody ⟨label, .structs shape⟩ hpos hwidth _ hdvd hbody)
      fun raw ha hread => ?_
    refine (Take.Reads.ofExcept hread).bind_nil ?_
    rw [ha]
    simpa [FlatNode.container, Function.comp_def] using Take.Reads.pure _
  | _ =>
    have hbody := Nat.lt_of_le_of_lt (length_body_le ..) hl
    refine reads_section hlabel hbody
      (Container.reads_flatBody hwidth (hfixed (by simp)) hbody (by simpa using hrows))
      fun raw ha hread => ?_
    refine (Take.Reads.ofExcept hread).bind_nil ?_
    rw [ha]
    simpa [FlatNode.container] using Take.Reads.pure _

theorem reads_checkChild {s : Schema} {ordinal expected : Nat} (h : rows.length = expected) :
    Take.Reads (liftM (Container.checkChild ordinal expected (s.container rows))) [] () := by
  apply Take.Reads.ofExcept
  simp [Container.checkChild, Container.require, instances_container, h]

theorem reads_keys {keys : KeySpec} (set : Bool) (ordinal : Nat)
    (hl : (keys.storedKeys set rows).body.length < wordLimit) :
    Take.Reads (Container.takeKeyed ordinal keys.ordered) (keys.storedKeys set rows).body
      (keys.storedKeys set rows).view :=
  (keys.storedKeys set rows).reads_body ordinal hl

/-- The sections of rows are opened as their container. -/
theorem reads_sections {s : Schema} (hs : s.Storable) (hr : ∀ row ∈ rows, s.Holds row)
    (hl : (s.sections rows).length < wordLimit) :
    Take.Reads (Container.takeNode s) (s.sections rows) (s.container rows) := by
  have hrows := Nat.lt_of_le_of_lt (length_le_length_sections hs.addressed hr) hl
  induction s generalizing rows with
  | flat node => exact reads_flat hs hr hl
  | sequence label element sep args ih =>
    obtain ⟨hlabel, helement⟩ := hs
    simp only [sections, List.length_append] at hl
    have hbody := length_body_le .shape label.ordinal args
      (Section.shapeBody (rows.map fun row => row.items.length))
    have hitems := length_le_length_sections helement.addressed (holds_items hr)
    have hsum : (rows.map fun row => row.items.length).sum = (rows.flatMap Value.items).length :=
      List.length_flatMap.symm
    refine reads_section hlabel (by omega)
      (Container.reads_shapeBody label.ordinal (by simpa using hrows) (by omega))
      fun raw ha hread => ?_
    refine (Take.Reads.ofExcept hread).bind_nil ?_
    refine (ih helement (holds_items hr) (by omega) (by omega)).bind_pure ?_
    refine (reads_checkChild ?_).bind_nil ?_
    · rw [ShapeView.total, ← Array.getLast?_toList, Section.getLast?_offsets]
      exact hsum.symm
    · rw [ha]
      simpa [container] using Take.Reads.pure _
  | set label keys =>
    obtain ⟨hlabel, hcount⟩ := hs
    rw [← List.append_nil (sections _ _)]
    have hbody := Nat.lt_of_le_of_lt (length_body_le ..) hl
    apply reads_section hlabel hbody (reads_keys true label.ordinal hbody)
    intro raw ha hread
    refine (Take.Reads.ofExcept hread).bind_nil ?_
    rw [ha]
    exact .pure _
  | map label keys value sep ih =>
    obtain ⟨hlabel, hcount, hvalue⟩ := hs
    simp only [sections, List.length_append] at hl
    have hbody := length_body_le (Container.keyedTag keys) label.ordinal keys.args
      (keys.storedKeys false rows).body
    have hpayloads := length_le_length_sections hvalue.addressed (holds_payloads hr)
    refine reads_section hlabel (by omega) (reads_keys false label.ordinal (by omega))
      fun raw ha hread => ?_
    refine (Take.Reads.ofExcept hread).bind_nil ?_
    refine (ih hvalue (holds_payloads hr) (by omega) (by omega)).bind_pure ?_
    refine (reads_checkChild ?_).bind_nil ?_
    · rw [KeyedView.total, StoredKeys.view, ← Array.getLast?_toList, Section.getLast?_offsets]
      simp only [KeySpec.storedKeys, List.map_map, List.length_flatMap, Option.getD_some]
      refine congrArg List.sum (List.map_congr_left ?_)
      intro row hm
      simpa using length_payloads (hr row hm)
    · rw [ha]
      exact .pure _
  | pair label first second sep ih₁ ih₂ =>
    obtain ⟨hlabel, hfirst, hsecond⟩ := hs
    simp only [sections, List.length_append] at hl
    have hbody : (Section.pairBody rows.length).length < wordLimit := by
      rw [Section.pairBody, Bytes.length_ofNat]
      decide
    apply reads_section hlabel hbody (@Take.Reads.number 8 _ hrows)
    intro raw ha hread
    refine (Take.Reads.ofExcept hread).bind_nil ?_
    refine (ih₁ hfirst (holds_first hr) (by omega) (by simpa using hrows)).bind ?_
    refine (ih₂ hsecond (holds_second hr) (by omega) (by simpa using hrows)).bind_pure ?_
    refine (reads_checkChild (by simp)).bind_nil ((reads_checkChild (by simp)).bind_nil ?_)
    rw [ha]
    exact .pure _

/-! ## Reading -/

theorem readStored_stored {node : FlatNode} (hc : node.Countable) {value : FlatValue}
    (hv : node.layout.Holds value) : Container.readStored node value.stored = .ok value := by
  rw [Container.readStored, FlatNode.read_stored hc hv]
  rfl

/-- The parts of a row stand one after the other among the parts of all rows. -/
theorem mapM_range'_flatMap {α β : Type} (f : α → List β) {xs : List α} {i : Nat}
    (hi : i < xs.length) {g : Nat → Except ReadError β}
    (hg : ∀ j (hj : j < (xs.flatMap f).length), g j = .ok (xs.flatMap f)[j]) :
    (List.range' ((xs.map fun x => (f x).length).take i).sum (f xs[i]).length).mapM g =
      .ok (f xs[i]) := by
  have hi' : i < (xs.map f).length := by simpa using hi
  refine mapM_eq_ok_iff.2 (List.forall₂_iff_get.2 ⟨by simp, ?_⟩)
  intro j _ hj
  have h := Section.getElem?_flatten (xs.map f) hi' (by simpa using hj)
  rw [List.map_map, ← List.flatMap_def, List.getElem?_eq_some_iff] at h
  obtain ⟨hlt, h⟩ := h
  simpa [Function.comp_def] using (hg _ hlt).trans (congrArg Except.ok h)

/-- The entries of a keyed row are read back. -/
theorem readEntries_eq {keys : KeySpec} (set : Bool) (hc : keys.node.Countable) (ordinal : Nat)
    {i : Nat} (hi : i < rows.length) {entries : List (Value × Option Value)}
    (he : rows[i] = .keyed entries) (hk : keys.Holds entries)
    {value : Slotted → Except ReadError (Option Value)}
    (hv : ∀ j (hj : j < entries.length),
      value ((keys.storedKeys set rows).view.slotted ((keys.storedKeys set rows).startOf i + j)) =
        .ok entries[j].2) :
    Container.readEntries ordinal keys (keys.storedKeys set rows).view i value =
      .ok (.keyed entries) := by
  set k := keys.storedKeys set rows with hkdef
  have hi' : i < k.instances.length := by simpa [hkdef, KeySpec.storedKeys] using hi
  have hkeys : k.instances[i] = entries.map (·.1.stored) := by
    simp [hkdef, KeySpec.storedKeys, he, Value.entries]
  have hlength : (k.instanceAt i).length = .ok k.instances[i].length := by
    have := k.startOf_succ hi'
    rw [KeyedInstance.length, Checked.sub, StoredKeys.instanceAt, if_pos (by simp; omega)]
    simp [this]
  have hentries := k.entries_instanceAt hi'
  have hread : (k.instances[i].mapIdx fun j key => (key, k.view.slotted (k.startOf i + j))).mapM
      (fun (entry : Bytes × Slotted) => do
        let key ← Container.readStored keys.node entry.1
        return (Value.flat key, ← value entry.2)) = Except.ok entries := by
    refine mapM_eq_ok_iff.2 (List.forall₂_iff_get.2 ⟨by simp [hkeys], ?_⟩)
    intro j _ hj
    obtain ⟨key, hkey, hform⟩ := hk.1 _ (List.getElem_mem hj)
    have hj' : j < k.instances[i].length := by simpa [hkeys] using hj
    have hstored : k.instances[i][j] = key.stored := by simp [hkeys, hkey, Value.stored]
    simp only [List.get_eq_getElem, List.getElem_mapIdx, hstored, readStored_stored hc hform,
      ok_bind, hv j hj, pure_eq_ok]
    rw [← hkey]
  simp only [Container.readEntries, Container.found, k.instance?_view hi', ok_bind, hlength,
    hentries, Except.mapError]
  exact (congrArg (fun read => read >>= _) hread).trans rfl

theorem getElem?_payloads {label : Label} {keys : KeySpec} {value : Schema} {sep : Bytes}
    (hr : ∀ row ∈ rows, (map label keys value sep).Holds row) {i j : Nat} (hi : i < rows.length)
    {entries : List (Value × Option Value)} (he : rows[i] = .keyed entries)
    (hj : j < entries.length) {item : Value} (hitem : entries[j].2 = some item) :
    (rows.flatMap payloads)[(keys.storedKeys false rows).startOf i + j]? = some item := by
  have hlengths : (keys.storedKeys false rows).instances.map List.length =
      (rows.map payloads).map List.length := by
    simp only [KeySpec.storedKeys, List.map_map]
    apply List.map_congr_left
    intro row hm
    simpa using (length_payloads (hr row hm)).symm
  have hpayload : (payloads rows[i])[j]? = some item := by
    obtain ⟨_, hrow, -, hsome⟩ := Holds.map_iff.1 (hr _ (List.getElem_mem hi))
    rw [he, Value.keyed.injEq] at hrow
    subst hrow
    rw [payloads, he, Value.entries, getElem?_filterMap, List.getElem?_eq_getElem hj,
      Option.bind_some, hitem]
    intro entry hm
    obtain ⟨item, hitem, -⟩ := hsome entry hm
    rw [hitem]
    rfl
  obtain ⟨hlt, hpayload⟩ := List.getElem?_eq_some_iff.1 hpayload
  have h := Section.getElem?_flatten (rows.map payloads) (i := i) (j := j) (by simpa using hi)
    (by simpa using hlt)
  rw [StoredKeys.startOf, hlengths, List.flatMap_def, h, ← hpayload]
  simp

theorem read_flat {node : FlatNode} (hs : (flat node).Storable)
    (hr : ∀ row ∈ rows, (flat node).Holds row) (hl : (node.section rows).length < wordLimit)
    {i : Nat} (hi : i < rows.length) : (node.container rows).read i = .ok rows[i] := by
  obtain ⟨-, hwidth, hcount⟩ := hs
  obtain ⟨value, hrow, hvalue⟩ := Holds.flat_iff.1 (hr _ (List.getElem_mem hi))
  have hpos := Layout.width_pos hcount
  have hfixed := length_of_mem_stored hr
  have hi' : i < (rows.map Value.stored).length := by simpa using hi
  have hstored : (rows.map Value.stored)[i] = value.stored := by simp [hrow, Value.stored]
  have hread := readStored_stored hcount hvalue
  have hdata := Nat.lt_of_le_of_lt (length_stored_le node rows) hl
  obtain ⟨label, layout⟩ := node
  cases layout with
  | structs shape =>
    have hdvd : ∀ run ∈ rows.map Value.stored, shape.width ∣ run.length := by
      intro run hm
      obtain ⟨value, hv, rfl⟩ := exists_stored hr hm
      exact Dvd.intro _ (FlatNode.length_stored hv).symm
    have hget := RaggedView.get_eq hpos hdvd hdata hi'
    rw [hstored, List.length_map, List.map_map] at hget
    refine Eq.trans (congrArg (fun found => found >>= _)
      (congrArg (Container.found label.ordinal i) hget)) ?_
    simp only [Container.found, ok_bind, hread, hrow]
    rfl
  | _ =>
    have hget := FlatView.get_eq (hfixed (by simp)) hdata hi'
    rw [hstored, List.length_map] at hget
    refine Eq.trans (congrArg (fun found => found >>= _)
      (congrArg (Container.found label.ordinal i) hget)) ?_
    simp only [Container.found, ok_bind, hread, hrow]
    rfl

/-- The container of rows gives them back. -/
theorem read_container {s : Schema} (hs : s.Storable) (hr : ∀ row ∈ rows, s.Holds row)
    (hl : (s.sections rows).length < wordLimit) {i : Nat} (hi : i < rows.length) :
    (s.container rows).read i = .ok rows[i] := by
  induction s generalizing rows i with
  | flat node => exact read_flat hs hr hl hi
  | sequence label element sep args ih =>
    obtain ⟨hlabel, helement⟩ := hs
    simp only [sections, List.length_append] at hl
    obtain ⟨items, hrow, -⟩ := Holds.sequence_iff.1 (hr _ (List.getElem_mem hi))
    have hrange := @ShapeView.range_eq (rows.map fun row => row.items.length) i
      (by simpa using hi)
    have hsucc : ((rows.map fun row => row.items.length).take (i + 1)).sum =
        ((rows.map fun row => row.items.length).take i).sum + rows[i].items.length := by
      rw [List.sum_take_succ _ _ (by simpa using hi), List.getElem_map]
    have hitems := mapM_range'_flatMap Value.items hi
      (g := (element.container (rows.flatMap Value.items)).read) fun j hj =>
        ih helement (holds_items hr) (by omega) hj
    rw [List.length_map] at hrange
    simp only [container, Container.read, Container.found, hrange, hsucc, ok_bind,
      Nat.add_sub_cancel_left, hitems, pure_eq_ok]
    rw [hrow]
    rfl
  | set label keys =>
    obtain ⟨hlabel, hcount⟩ := hs
    obtain ⟨entries, hrow, hkeys, hnone⟩ := Holds.set_iff.1 (hr _ (List.getElem_mem hi))
    rw [container, Container.read, hrow]
    apply readEntries_eq true hcount label.ordinal hi hrow hkeys
    intro j hj
    rw [hnone _ (List.getElem_mem hj)]
    rfl
  | map label keys value sep ih =>
    obtain ⟨hlabel, hcount, hvalue⟩ := hs
    simp only [sections, List.length_append] at hl
    obtain ⟨entries, hrow, hkeys, hsome⟩ := Holds.map_iff.1 (hr _ (List.getElem_mem hi))
    rw [container, Container.read, hrow]
    apply readEntries_eq false hcount label.ordinal hi hrow hkeys
    intro j hj
    obtain ⟨item, hitem, -⟩ := hsome _ (List.getElem_mem hj)
    have hplace := getElem?_payloads hr hi hrow hj hitem
    obtain ⟨hlt, hplace⟩ := List.getElem?_eq_some_iff.1 hplace
    have hread := ih hvalue (holds_payloads hr) (by omega) hlt
    rw [hplace] at hread
    exact (congrArg (fun read => some <$> read) hread).trans (congrArg Except.ok hitem.symm)
  | pair label first second sep ih₁ ih₂ =>
    obtain ⟨hlabel, hfirst, hsecond⟩ := hs
    simp only [sections, List.length_append] at hl
    obtain ⟨left, right, hrow, -, -⟩ := Holds.pair_iff.1 (hr _ (List.getElem_mem hi))
    have h₁ := ih₁ hfirst (holds_first hr) (by omega) (i := i) (by simpa using hi)
    have h₂ := ih₂ hsecond (holds_second hr) (by omega) (i := i) (by simpa using hi)
    simp only [List.getElem_map, hrow] at h₁ h₂
    simp only [container, Container.read, h₁, h₂, ok_bind, pure_eq_ok, hrow]
    rfl

end

end Schema

end RecordStore
