import RecordStore.Proofs.Outcomes
import RecordStore.Proofs.Reads

/-!
# Bodies of flat and shape sections

The bodies of all sections but keyed ones are read back as views, and a view gives each instance
back.

## Main statements

* `Container.reads_flatBody`, `FlatView.get_eq` — values of one width.
* `Container.reads_raggedBody`, `RaggedView.get_eq` — runs of elements of one width.
* `Container.reads_shapeBody`, `ShapeView.range_eq` — counts of elements.
-/

namespace RecordStore

/-! ## Slices -/

theorem Checked.slice_eq {bytes : Bytes} {start stop : Nat} (hs : start ≤ stop)
    (hl : stop ≤ bytes.length) :
    Checked.slice bytes.toArray start stop = .ok ((bytes.take stop).drop start) := by
  rw [Checked.slice, if_pos ⟨hs, by simpa using hl⟩, List.extract_toArray,
    List.extract_eq_take_drop, List.drop_take]

/-- The item between two neighbouring offsets of the items in a row. -/
theorem slice?_flatten (items : List Bytes) {i : Nat} (hi : i < items.length) :
    slice? items.flatten.toArray ((items.map List.length).take i).sum
      ((items.map List.length).take (i + 1)).sum = some items[i] := by
  have hle := Section.sum_take_succ_lengths items hi
  have hmax := Section.sum_take_lengths_le items (i + 1)
  rw [slice?, Checked.slice_eq (by omega) hmax, Section.drop_take_flatten items hi]
  rfl

namespace Container

variable {node : FlatNode}

theorem reads_takeWidth (hw : node.layout.width < 2 ^ 32) :
    Take.Reads (takeWidth node) (Bytes.ofNat 4 node.layout.width) node.layout.width := by
  refine (@Take.Reads.number 4 _ hw).bind_pure ?_
  refine Take.Reads.bind_nil (a := ()) ?_ (.pure _)
  simp only [decide_true]
  exact .ofExcept rfl

/-- Values of one width are read back. -/
theorem reads_flatBody (hw : node.layout.width < 2 ^ 32) {values : List Bytes}
    (hv : ∀ value ∈ values, value.length = node.layout.width)
    (hl : (Section.flatBody node.layout.width values).length < wordLimit)
    (hc : values.length < wordLimit) :
    Take.Reads (takeFlat node) (Section.flatBody node.layout.width values)
      ⟨node.layout.width, values.length, values.flatten.toArray⟩ := by
  have hsize : values.flatten.length = values.length * node.layout.width := by
    rw [List.length_flatten, List.map_eq_replicate_iff.2 hv, List.sum_replicate_nat]
  simp only [Section.flatBody, List.length_append] at hl
  have hfits : values.length * node.layout.width < wordLimit := by omega
  simp only [Section.flatBody, List.append_assoc]
  refine (reads_takeWidth hw).bind ((@Take.Reads.number 8 _ hc).bind ?_)
  refine Take.Reads.bind_nil (a := ()) ?_ ?_
  · simp only [hfits, decide_true]
    exact .ofExcept rfl
  · exact (Take.Reads.bytes hsize).bind_pure (.pure _)

theorem reads_shapeBody (ordinal : Nat) {counts : List Nat} (hc : counts.length < wordLimit)
    (hl : counts.sum < wordLimit) :
    Take.Reads (takeShape ordinal) (Section.shapeBody counts)
      ⟨counts.length, (Section.offsets counts).toArray⟩ :=
  (@Take.Reads.number 8 _ hc).bind
    ((reads_takeOffsets ordinal .elementOffsets rfl hl).bind_pure (.pure _))

end Container

theorem Section.totals_div {width : Nat} (hw : 0 < width) {lengths : List Nat}
    (h : ∀ length ∈ lengths, width ∣ length) (total : Nat) :
    (totals (width * total) lengths).map (· / width) = totals total (lengths.map (· / width)) := by
  induction lengths generalizing total with
  | nil => simp [totals, Nat.mul_div_cancel_left _ hw]
  | cons length lengths ih =>
    obtain ⟨count, rfl⟩ := h length (by simp)
    rw [totals, List.map_cons, ← Nat.mul_add, ih fun l hl => h l (List.mem_cons_of_mem _ hl),
      Nat.mul_div_cancel_left _ hw, List.map_cons, Nat.mul_div_cancel_left _ hw, totals]

theorem Section.sum_map_div {width : Nat} (hw : 0 < width) {lengths : List Nat}
    (h : ∀ length ∈ lengths, width ∣ length) :
    (lengths.map (· / width)).sum * width = lengths.sum := by
  induction lengths with
  | nil => simp
  | cons length lengths ih =>
    obtain ⟨count, rfl⟩ := h length (by simp)
    rw [List.map_cons, List.sum_cons, List.sum_cons, Nat.add_mul,
      ih fun l hl => h l (List.mem_cons_of_mem _ hl), Nat.mul_div_cancel_left _ hw, Nat.mul_comm]

/-- Runs of elements of one width are read back. -/
theorem Container.reads_raggedBody {node : FlatNode} (hp : 0 < node.layout.width)
    (hw : node.layout.width < 2 ^ 32) {runs : List Bytes}
    (hv : ∀ run ∈ runs, node.layout.width ∣ run.length)
    (hl : (Section.raggedBody node.layout.width runs).length < wordLimit) :
    Take.Reads (takeRagged node) (Section.raggedBody node.layout.width runs)
      { width := node.layout.width
        instances := runs.length
        offsets :=
          (Section.offsets (runs.map fun run => run.length / node.layout.width)).toArray
        data := runs.flatten.toArray } := by
  have hdvd : ∀ length ∈ runs.map List.length, node.layout.width ∣ length := by
    intro length h
    obtain ⟨run, hr, rfl⟩ := List.mem_map.1 h
    exact hv run hr
  have htable : (Section.offsets (runs.map List.length)).map (· / max node.layout.width 1) =
      Section.offsets (runs.map fun run => run.length / node.layout.width) := by
    have h := Section.totals_div hp hdvd 0
    rw [Nat.mul_zero, List.map_map] at h
    rwa [Nat.max_eq_left hp]
  have hsum : (runs.map fun run => run.length / node.layout.width).sum * node.layout.width =
      runs.flatten.length := by
    have h := Section.sum_map_div hp hdvd
    rwa [List.map_map, ← List.length_flatten] at h
  simp only [Section.raggedBody, List.length_append, htable, Section.length_numbers,
    Section.length_offsets, List.length_map] at hl
  have hcount : (runs.map fun run => run.length / node.layout.width).sum ≤
      runs.flatten.length := hsum ▸ Nat.le_mul_of_pos_right _ hp
  simp only [Section.raggedBody, htable, List.append_assoc]
  refine (reads_takeWidth hw).bind ((@Take.Reads.number 8 _ (by
    show runs.length < wordLimit
    omega)).bind ?_)
  refine (reads_takeOffsets _ .instanceOffsets (by simp) (by omega)).bind ?_
  refine Take.Reads.bind_nil (a := ()) ?_ ?_
  · simp only [hsum, show runs.flatten.length < wordLimit by omega, decide_true]
    exact .ofExcept rfl
  · exact (Take.Reads.bytes hsum.symm).bind_pure (.pure _)

/-! ## Instances -/

theorem FlatView.get_eq {width : Nat} {values : List Bytes}
    (hv : ∀ value ∈ values, value.length = width) (hl : values.flatten.length < wordLimit)
    {i : Nat} (hi : i < values.length) :
    FlatView.get ⟨width, values.length, values.flatten.toArray⟩ i = .ok (some values[i]) := by
  have hn : ¬values.length ≤ i := Nat.not_le.2 hi
  have hsum (j : Nat) (hj : j ≤ values.length) :
      ((values.map List.length).take j).sum = j * width := by
    rw [List.map_eq_replicate_iff.2 hv, List.take_replicate, Nat.min_eq_left hj,
      List.sum_replicate_nat]
  have hmax := Section.sum_take_lengths_le values (i + 1)
  rw [hsum _ hi, Nat.succ_mul] at hmax
  have hslice := slice?_flatten values hi
  rw [hsum _ hi.le, hsum _ hi, Nat.succ_mul] at hslice
  simp only [FlatView.get, if_neg hn, Checked.mul, Checked.add,
    if_pos (show i * width < wordLimit by omega), ok_bind,
    if_pos (show i * width + width < wordLimit by omega), hslice]
  rfl

theorem RaggedView.get_eq {width : Nat} (hw : 0 < width) {runs : List Bytes}
    (hv : ∀ run ∈ runs, width ∣ run.length) (hl : runs.flatten.length < wordLimit)
    {i : Nat} (hi : i < runs.length) :
    RaggedView.get
      { width
        instances := runs.length
        offsets := (Section.offsets (runs.map fun run => run.length / width)).toArray
        data := runs.flatten.toArray } i = .ok (some runs[i]) := by
  have hn : ¬runs.length ≤ i := Nat.not_le.2 hi
  have hdvd : ∀ length ∈ runs.map List.length, width ∣ length := by
    intro length h
    obtain ⟨run, hr, rfl⟩ := List.mem_map.1 h
    exact hv run hr
  have hsum (j : Nat) : ((runs.map fun run => run.length / width).take j).sum * width =
      ((runs.map List.length).take j).sum := by
    have h := Section.sum_map_div hw fun length hl => hdvd length (List.mem_of_mem_take (i := j) hl)
    rwa [List.map_take, List.map_map] at h
  have entry (j : Nat) (hj : j ≤ runs.length) :
      Checked.entry (Section.offsets (runs.map fun run => run.length / width)).toArray j =
        .ok ((runs.map fun run => run.length / width).take j).sum := by
    simp only [Checked.entry, List.getElem?_toArray]
    rw [Section.getElem?_offsets (by simpa using hj)]
  have hle := Section.sum_take_lengths_le runs i
  have hmax := Section.sum_take_lengths_le runs (i + 1)
  simp only [RaggedView.get, if_neg hn, entry i hi.le, entry (i + 1) hi, ok_bind, Checked.mul, hsum,
    if_pos (show ((runs.map List.length).take i).sum < wordLimit by omega),
    if_pos (show ((runs.map List.length).take (i + 1)).sum < wordLimit by omega),
    slice?_flatten runs hi]
  rfl

theorem ShapeView.range_eq {counts : List Nat} {i : Nat} (hi : i < counts.length) :
    ShapeView.range ⟨counts.length, (Section.offsets counts).toArray⟩ i =
      .ok (some ((counts.take i).sum, (counts.take (i + 1)).sum)) := by
  have hn : ¬counts.length ≤ i := Nat.not_le.2 hi
  simp only [ShapeView.range, if_neg hn, Checked.entry, List.getElem?_toArray,
    Section.getElem?_offsets hi.le, Section.getElem?_offsets (Nat.succ_le_of_lt hi)]
  rfl

end RecordStore
