import Mathlib.Algebra.BigOperators.Group.List.Lemmas
import Mathlib.Algebra.GroupWithZero.Nat
import RecordStore.Store.Section
import RecordStore.Store.View

/-!
# Offset tables

A table of offsets starts at zero, never decreases and ends at the total. Items of known lengths
that stand in a row are found again between two neighbouring offsets.

## Main statements

* `Section.getElem?_offsets` — an entry is the total of the lengths before it.
* `isOffsetTable_offsets` — a written table passes the check made when it is opened.
* `Section.extract_flatten` — the item between two neighbouring offsets.
-/

namespace RecordStore

namespace Section

variable {α : Type}

@[simp] theorem length_totals (total : Nat) (lengths : List Nat) :
    (totals total lengths).length = lengths.length + 1 := by
  induction lengths generalizing total with
  | nil => rfl
  | cons length lengths ih => simp [totals, ih]

@[simp] theorem length_offsets (lengths : List Nat) :
    (offsets lengths).length = lengths.length + 1 :=
  length_totals 0 lengths

theorem getElem?_totals (total : Nat) {lengths : List Nat} {i : Nat} (hi : i ≤ lengths.length) :
    (totals total lengths)[i]? = some (total + (lengths.take i).sum) := by
  induction lengths generalizing total i with
  | nil =>
    obtain rfl : i = 0 := by simpa using hi
    simp [totals]
  | cons length lengths ih =>
    cases i with
    | zero => simp [totals]
    | succ i =>
      have hi : i ≤ lengths.length := by simpa using hi
      simp [totals, ih (total + length) hi, Nat.add_assoc]

theorem getElem?_offsets {lengths : List Nat} {i : Nat} (hi : i ≤ lengths.length) :
    (offsets lengths)[i]? = some (lengths.take i).sum := by
  rw [offsets, getElem?_totals 0 hi, Nat.zero_add]

theorem head?_offsets (lengths : List Nat) : (offsets lengths).head? = some 0 := by
  rw [List.head?_eq_getElem?, getElem?_offsets (Nat.zero_le _), List.take_zero, List.sum_nil]

theorem getLast?_offsets (lengths : List Nat) :
    (offsets lengths).getLast? = some lengths.sum := by
  rw [List.getLast?_eq_getElem?, length_offsets, Nat.add_sub_cancel, getElem?_offsets le_rfl,
    List.take_length]

theorem le_sum_of_mem_totals {total n : Nat} {lengths : List Nat} (h : n ∈ totals total lengths) :
    n ≤ total + lengths.sum := by
  induction lengths generalizing total with
  | nil => simp_all [totals]
  | cons length lengths ih =>
    simp only [totals, List.mem_cons] at h
    rw [List.sum_cons]
    rcases h with rfl | h
    · omega
    · have := ih h
      omega

theorem le_sum_of_mem_offsets {n : Nat} {lengths : List Nat} (h : n ∈ offsets lengths) :
    n ≤ lengths.sum := by
  simpa using le_sum_of_mem_totals h

theorem isMonotone_totals (total : Nat) (lengths : List Nat) :
    isMonotone (totals total lengths) = true := by
  induction lengths generalizing total with
  | nil => rfl
  | cons length lengths ih =>
    have h := ih (total + length)
    cases lengths with
    | nil => simp [totals, isMonotone]
    | cons next lengths =>
      simp only [totals] at h ⊢
      simp [isMonotone, h]

/-- Items in a row, cut at neighbouring offsets, are the items again. -/
theorem drop_take_flatten (items : List (List α)) {i : Nat} (hi : i < items.length) :
    (items.flatten.take ((items.map List.length).take (i + 1)).sum).drop
      ((items.map List.length).take i).sum = items[i] :=
  List.drop_take_succ_flatten_eq_getElem items i hi

theorem sum_take_succ_lengths (items : List (List α)) {i : Nat} (hi : i < items.length) :
    ((items.map List.length).take (i + 1)).sum =
      ((items.map List.length).take i).sum + items[i].length := by
  rw [List.sum_take_succ (items.map List.length) i (by simpa using hi), List.getElem_map]

theorem sum_take_lengths_le (items : List (List α)) (i : Nat) :
    ((items.map List.length).take i).sum ≤ items.flatten.length := by
  rw [List.length_flatten, ← List.take_append_drop i (items.map List.length), List.sum_append,
    List.take_append_drop]
  exact Nat.le_add_right _ _

theorem getElem?_flatten (items : List (List α)) {i j : Nat} (hi : i < items.length)
    (hj : j < items[i].length) :
    items.flatten[((items.map List.length).take i).sum + j]? = some items[i][j] := by
  have h := congrArg (·[j]?) (drop_take_flatten items hi)
  have hs := sum_take_succ_lengths items hi
  simp only [List.getElem?_drop] at h
  rw [List.getElem?_take_of_lt (by omega)] at h
  rw [h, List.getElem?_eq_getElem hj]

/-- The item between two neighbouring offsets of an array of items in a row. -/
theorem extract_flatten (items : List (List α)) {i : Nat} (hi : i < items.length) :
    (items.flatten.toArray.extract ((items.map List.length).take i).sum
      ((items.map List.length).take (i + 1)).sum).toList = items[i] := by
  rw [List.extract_toArray, List.extract_eq_take_drop, ← drop_take_flatten items hi,
    List.drop_take]

/-- Numbering items one after the other numbers all members. -/
theorem flatten_mapIdx {β : Type} (f : Nat → α → β) (items : List (List α)) :
    (items.mapIdx fun i item =>
        item.mapIdx fun j a => f (((items.map List.length).take i).sum + j) a).flatten =
      items.flatten.mapIdx f := by
  induction items generalizing f with
  | nil => rfl
  | cons item items ih =>
    have h := ih fun n => f (n + item.length)
    rw [List.flatten_cons, List.mapIdx_append, ← h, List.mapIdx_cons, List.flatten_cons]
    simp [Nat.add_comm, Nat.add_left_comm]

end Section

/-- A written table passes the check made when it is opened. -/
theorem isOffsetTable_offsets (lengths : List Nat) :
    isOffsetTable (Section.offsets lengths) lengths.sum = true := by
  simp [isOffsetTable, Section.head?_offsets, Section.getLast?_offsets,
    show isMonotone (Section.offsets lengths) = true from Section.isMonotone_totals 0 lengths]

end RecordStore
