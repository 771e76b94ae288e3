import Mathlib.Data.List.Basic
import RecordStore.Proofs.CleanRecords

/-!
# Delimiters of one byte

A text is cut at a delimiter of one byte wherever the byte occurs, so records are free of it, and
texts that are free of it are read back from where they are put together.

## Main statements

* `Records.mem_split_singleton` — records are made of the input, without the delimiter.
* `Records.mem_mapEntries_singleton` — the same for the entries of a map.
* `Records.mapEntries_flatMap` — entries are cut where they were put together.
-/

namespace RecordStore

/-! ## Cuts -/

namespace Bytes

theorem cut?_singleton_cons (d b : UInt8) (rest : Bytes) :
    cut? [d] (b :: rest) =
      if d = b then some ([], rest)
      else (cut? [d] rest).map fun (before, after) => (b :: before, after) := by
  rw [cut?_cons]
  simp [List.isPrefixOf]

/-- A byte string is cut at the first occurrence of a byte. -/
theorem cut?_singleton {d : UInt8} {front : Bytes} (h : d ∉ front) (back : Bytes) :
    cut? [d] (front ++ d :: back) = some (front, back) := by
  induction front with
  | nil => simp [cut?_singleton_cons]
  | cons b front ih => grind [cut?_singleton_cons]

theorem cut?_singleton_eq_none {d : UInt8} {hay : Bytes} (h : d ∉ hay) : cut? [d] hay = none := by
  induction hay with
  | nil => simp [cut?_nil]
  | cons b hay ih => grind [cut?_singleton_cons]

theorem not_mem_of_cut?_singleton {d : UInt8} {hay before after : Bytes}
    (h : cut? [d] hay = some (before, after)) : d ∉ before := by
  induction hay generalizing before with
  | nil => simp [cut?_nil] at h
  | cons b hay ih =>
    rw [cut?_singleton_cons] at h
    grind [Option.map_eq_some_iff]

theorem not_mem_of_cut?_eq_none {d : UInt8} {hay : Bytes} (h : cut? [d] hay = none) :
    d ∉ hay := by
  induction hay with
  | nil => simp
  | cons b hay ih => grind [cut?_singleton_cons, Option.map_eq_none_iff]

end Bytes

/-! ## Records -/

namespace Records

/-- A text without a byte is delimited by it. -/
theorem delimitsCleanly_singleton {d : UInt8} {text : Bytes} (h : d ∉ text) :
    delimitsCleanly text [d] = true := by
  rw [delimitsCleanly_iff (List.cons_ne_nil d [])]
  induction text with
  | nil => simp [Bytes.find?_cons]
  | cons b text ih => grind [Bytes.find?_cons]

theorem split_staged_singleton {d : UInt8} {texts : List Bytes} (h : ∀ text ∈ texts, d ∉ text) :
    split [d] (staged [d] texts) = texts :=
  split_staged (List.cons_ne_nil _ _) fun text hm => delimitsCleanly_singleton (h text hm)

/-- A record is made of the bytes that are left, none of which is the delimiter. -/
theorem next_singleton {d : UInt8} {r r' : RecordReader} {record : Bytes} (hd : r.delim = [d])
    (h : r.next = (some record, r')) :
    d ∉ record ∧ record ⊆ r.rest ∧ r'.delim = [d] ∧ r'.rest ⊆ r.rest := by
  simp only [RecordReader.next, hd] at h
  split at h
  · simp at h
  · cases hcut : Bytes.cut? [d] r.rest with
    | none =>
      have := Bytes.not_mem_of_cut?_eq_none hcut
      simp only [hcut] at h
      grind [RecordReader.finish]
    | some sides =>
      have := Bytes.not_mem_of_cut?_singleton hcut
      have := Bytes.eq_of_cut? hcut
      simp only [hcut] at h
      grind

/-- Records are made of the bytes of the input, without the delimiter. -/
theorem mem_split_singleton {d : UInt8} {input piece : Bytes} (h : piece ∈ split [d] input) :
    d ∉ piece ∧ piece ⊆ input := by
  rw [split] at h
  generalize hr : RecordReader.start [d] input = r at h
  have hd : r.delim = [d] := hr ▸ rfl
  have hi : r.rest ⊆ input := hr ▸ List.Subset.refl _
  clear hr
  fun_induction RecordReader.toList r with
  | case1 r record r' hnext ih =>
    obtain ⟨hrecord, hsub, hd', hsub'⟩ := next_singleton hd hnext
    rcases List.mem_cons.1 h with rfl | h
    · exact ⟨hrecord, List.Subset.trans hsub hi⟩
    · exact ih h hd' (List.Subset.trans hsub' hi)
  | case2 => simp at h

/-! ## Entries -/

theorem mapEntries_self (q : UInt8) (input : Bytes) :
    mapEntries [q] [q] input = alternate (split [q] input) := by
  unfold mapEntries
  split
  · simp_all
  · rename_i hrecords
    rcases hs : split [q] input with _ | ⟨record, _ | ⟨record', records⟩⟩
    · rfl
    · have hm : record ∈ split [q] input := by simp [hs]
      have := Bytes.cut?_singleton_eq_none (mem_split_singleton hm).1
      simp [alternate, cutAt, this]
    · exact absurd hs (hrecords _ _ _)

theorem mem_of_cut_mem_alternate {records : List Bytes} {key value : Bytes}
    (h : .cut key value ∈ alternate records) : key ∈ records ∧ value ∈ records := by
  fun_induction alternate records <;> grind

/-- The key and the value of an entry are made of the bytes of the input, without the
separators that end them. -/
theorem mem_mapEntries_singleton {q r : UInt8} {input key value : Bytes}
    (h : .cut key value ∈ mapEntries [q] [r] input) :
    (q ∉ key ∧ r ∉ key ∧ key ⊆ input) ∧ r ∉ value ∧ value ⊆ input := by
  by_cases hqr : q = r
  · subst hqr
    rw [mapEntries_self] at h
    obtain ⟨hk, hv⟩ := mem_of_cut_mem_alternate h
    obtain ⟨hkey, hsub⟩ := mem_split_singleton hk
    exact ⟨⟨hkey, hkey, hsub⟩, mem_split_singleton hv⟩
  · rw [mapEntries_of_ne (by simpa using hqr)] at h
    obtain ⟨record, hm, hcut⟩ := List.mem_map.1 h
    obtain ⟨hr, hsub⟩ := mem_split_singleton hm
    simp only [cutAt, List.isEmpty_cons, Bool.false_eq_true, if_false] at hcut
    split at hcut
    · rename_i key' value' hsides
      have hq := Bytes.not_mem_of_cut?_singleton hsides
      have hrecord := Bytes.eq_of_cut? hsides
      grind
    · cases hcut

/-- Entries without the separators are cut where they were put together. -/
theorem mapEntries_flatMap {q r : UInt8} {pairs : List (Bytes × Bytes)}
    (h : ∀ pair ∈ pairs, q ∉ pair.1 ∧ r ∉ pair.1 ∧ r ∉ pair.2) :
    mapEntries [q] [r] (pairs.flatMap fun pair => pair.1 ++ [q] ++ pair.2 ++ [r]) =
      pairs.map fun pair => .cut pair.1 pair.2 := by
  apply mapEntries_joined (List.cons_ne_nil _ _) (List.cons_ne_nil _ _)
  · exact fun pair hm => delimitsCleanly_singleton (h pair hm).1
  · grind [delimitsCleanly_singleton]

end Records

end RecordStore
