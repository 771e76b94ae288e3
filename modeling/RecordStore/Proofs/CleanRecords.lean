import RecordStore.Records

/-!
# Records that delimit cleanly

Payloads that delimit cleanly are read back record by record from where they are staged, each
with the delimiter behind it.

## Main definitions

* `staged` — texts with a delimiter behind each.

## Main statements

* `Bytes.find?_append` — what follows does not move the first occurrence of a needle.
* `Records.split_staged` — staged texts are split where they were put together.
* `Records.mapEntries_joined` — so are the entries of a map, keys and values.
-/

namespace RecordStore

def staged (delim : Bytes) (texts : List Bytes) : Bytes := texts.flatMap (· ++ delim)

theorem staged_cons (delim text : Bytes) (texts : List Bytes) :
    staged delim (text :: texts) = text ++ delim ++ staged delim texts :=
  List.flatMap_cons

/-! ## Occurrences -/

namespace Bytes

theorem length_le_of_find? {needle hay : Bytes} {offset : Nat}
    (h : find? needle hay = some offset) : needle.length ≤ hay.length := by
  have hcut : cut? needle hay = some (hay.take offset, hay.drop (offset + needle.length)) := by
    rw [cut?, h, Option.map_some]
  have := congrArg List.length (eq_of_cut? hcut)
  simp only [List.length_append] at this
  omega

/-- What follows does not move the first occurrence of a needle. -/
theorem find?_append {needle hay : Bytes} {offset : Nat} (h : find? needle hay = some offset)
    (more : Bytes) : find? needle (hay ++ more) = some offset := by
  induction hay generalizing offset with
  | nil =>
    rw [find?_nil] at h
    obtain ⟨rfl, rfl⟩ : needle = [] ∧ 0 = offset := by simpa using h
    cases more with
    | nil => rfl
    | cons b more => rw [List.nil_append, find?_cons, if_pos (by simp)]
  | cons b hay ih =>
    have hlength := length_le_of_find? h
    -- the needle is no longer than the front, so what follows cannot complete it
    have hprefix : needle.isPrefixOf (b :: (hay ++ more)) = needle.isPrefixOf (b :: hay) := by
      rw [Bool.eq_iff_iff, List.isPrefixOf_iff_prefix, List.isPrefixOf_iff_prefix]
      exact ⟨fun hp => List.prefix_of_prefix_length_le hp (List.prefix_append (b :: hay) more)
        hlength, fun hp => hp.trans (List.prefix_append (b :: hay) more)⟩
    rw [find?_cons] at h
    rw [List.cons_append, find?_cons, hprefix]
    split at h
    · rwa [if_pos ‹_›]
    · obtain ⟨n, hn, rfl⟩ := Option.map_eq_some_iff.1 h
      rw [if_neg ‹_›, ih hn, Option.map_some]

theorem cut?_of_find? {needle front : Bytes} {back : Bytes}
    (h : find? needle (front ++ needle) = some front.length) :
    cut? needle (front ++ needle ++ back) = some (front, back) := by
  rw [cut?, find?_append h]
  simp

end Bytes

/-! ## Records -/

namespace Records

theorem delimitsCleanly_iff {delim : Bytes} (hd : delim ≠ []) {text : Bytes} :
    delimitsCleanly text delim = true ↔
      Bytes.find? delim (text ++ delim) = some text.length := by
  simp [delimitsCleanly, hd]

/-- An input is cut at the first delimiter, and what is behind it in turn. -/
theorem split_eq {delim : Bytes} (hd : delim ≠ []) (input : Bytes) :
    split delim input =
      match Bytes.cut? delim input with
      | some (record, rest) => record :: split delim rest
      | none => if input.isEmpty then [] else [input] := by
  have hfinish : (RecordReader.start delim input).finish.toList = [] := by
    rw [RecordReader.toList]
    split <;> simp_all [RecordReader.next, RecordReader.finish]
  have hempty : delim.isEmpty = false := List.isEmpty_eq_false_iff.2 hd
  rw [split, RecordReader.toList]
  cases hcut : Bytes.cut? delim input with
  | none =>
    have hnext : (RecordReader.start delim input).next =
        (if input.isEmpty then none else some input, (RecordReader.start delim input).finish) := by
      simp [RecordReader.next, RecordReader.start, hempty, hcut]
    split <;> grind
  | some sides =>
    have hnext : (RecordReader.start delim input).next =
        (some sides.1, RecordReader.start delim sides.2) := by
      simp [RecordReader.next, RecordReader.start, hempty, hcut]
    split <;> simp_all [split]

theorem split_nil {delim : Bytes} (hd : delim ≠ []) : split delim [] = [] := by
  rw [split_eq hd, Bytes.cut?_nil, if_neg (by simpa using hd)]
  rfl

/-- A text that delimits cleanly is the first record. -/
theorem split_append {delim : Bytes} (hd : delim ≠ []) {text : Bytes}
    (h : delimitsCleanly text delim = true) (rest : Bytes) :
    split delim (text ++ delim ++ rest) = text :: split delim rest := by
  rw [split_eq hd, Bytes.cut?_of_find? ((delimitsCleanly_iff hd).1 h)]

/-- Staged texts are split where they were put together, and then what follows them. -/
theorem split_staged_append {delim : Bytes} (hd : delim ≠ []) {texts : List Bytes}
    (h : ∀ text ∈ texts, delimitsCleanly text delim = true) (rest : Bytes) :
    split delim (staged delim texts ++ rest) = texts ++ split delim rest := by
  induction texts with
  | nil => rfl
  | cons text texts ih =>
    obtain ⟨htext, h⟩ := List.forall_mem_cons.1 h
    rw [staged_cons, List.append_assoc _ (staged delim texts), split_append hd htext, ih h,
      List.cons_append]

/-- Staged texts are split where they were put together. -/
theorem split_staged {delim : Bytes} (hd : delim ≠ []) {texts : List Bytes}
    (h : ∀ text ∈ texts, delimitsCleanly text delim = true) :
    split delim (staged delim texts) = texts := by
  have hsplit := split_staged_append hd h []
  rwa [List.append_nil, split_nil hd, List.append_nil] at hsplit

/-! ## Entries -/

theorem mapEntries_of_ne {keySep sep : Bytes} (h : keySep ≠ sep) (input : Bytes) :
    mapEntries keySep sep input = (split sep input).map (cutAt keySep) := by
  unfold mapEntries
  split <;> simp_all

/-- A record is cut behind a key that delimits cleanly. -/
theorem cutAt_append {sep key : Bytes} (hs : sep ≠ []) (h : delimitsCleanly key sep = true)
    (value : Bytes) : cutAt sep (key ++ sep ++ value) = .cut key value := by
  rw [cutAt, if_neg (by simpa using hs), Bytes.cut?_of_find? ((delimitsCleanly_iff hs).1 h)]

theorem alternate_flatMap (pairs : List (Bytes × Bytes)) :
    alternate (pairs.flatMap fun pair => [pair.1, pair.2]) =
      pairs.map fun pair => .cut pair.1 pair.2 := by
  induction pairs with
  | nil => rfl
  | cons pair pairs ih => exact congrArg (Entry.cut pair.1 pair.2 :: ·) ih

/-- Entries that are put together are cut where they were, if their keys and their values delimit
cleanly. Unless the separators are equal, a value has to do so together with its key. -/
theorem mapEntries_joined {keySep sep : Bytes} (hk : keySep ≠ []) (hs : sep ≠ [])
    {pairs : List (Bytes × Bytes)}
    (hkeys : ∀ pair ∈ pairs, delimitsCleanly pair.1 keySep = true)
    (hvalues : ∀ pair ∈ pairs, delimitsCleanly
      (if keySep = sep then pair.2 else pair.1 ++ keySep ++ pair.2) sep = true) :
    mapEntries keySep sep (pairs.flatMap fun pair => pair.1 ++ keySep ++ pair.2 ++ sep) =
      pairs.map fun pair => .cut pair.1 pair.2 := by
  by_cases heq : keySep = sep
  · subst heq
    have hjoin : (pairs.flatMap fun pair => pair.1 ++ keySep ++ pair.2 ++ keySep) =
        staged keySep (pairs.flatMap fun pair => [pair.1, pair.2]) := by
      simp [staged, List.flatMap_assoc]
    have hclean : ∀ text ∈ pairs.flatMap (fun pair => [pair.1, pair.2]),
        delimitsCleanly text keySep = true := by
      simp only [if_true] at hvalues
      grind
    cases pairs with
    | nil => rw [mapEntries, List.flatMap_nil, split_nil hs]; rfl
    | cons pair pairs =>
      rw [mapEntries, hjoin, split_staged hs hclean, ← alternate_flatMap]
      exact if_pos rfl
  · have hjoin : (pairs.flatMap fun pair => pair.1 ++ keySep ++ pair.2 ++ sep) =
        staged sep (pairs.map fun pair => pair.1 ++ keySep ++ pair.2) := by
      simp [staged, List.flatMap_map]
    have hclean : ∀ text ∈ pairs.map (fun pair => pair.1 ++ keySep ++ pair.2),
        delimitsCleanly text sep = true := by
      simpa only [if_neg heq, List.forall_mem_map] using hvalues
    rw [mapEntries_of_ne heq, hjoin, split_staged hs hclean, List.map_map]
    exact List.map_congr_left fun pair hm => cutAt_append hk (hkeys pair hm) pair.2

end Records

end RecordStore
