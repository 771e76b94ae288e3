import Mathlib.Algebra.GroupWithZero.Nat
import Mathlib.Data.List.Perm.Basic
import RecordStore.Store.Sink

/-!
# Storage order

The keys of an instance are stored in order, or bucket by bucket and in order within each bucket.
The order depends on the keys alone, so whatever stands behind them comes along.

## Main definitions

* `StorageOrder.arrange` — entries in the order in which they are stored.
* `StorageOrder.Before` — what that order is.

## Main statements

* `StorageOrder.arrange_perm`, `StorageOrder.pairwise_arrange` — no entry is lost, and the order is
  kept.
* `Entries.buckets_eq` — the buckets of a sink hold the entries of their keys.
-/

namespace RecordStore

/-! ## Buckets -/

namespace Bucket

theorem leastPower_pos (n : Nat) : 0 < leastPower n := by
  unfold leastPower
  split
  · exact Nat.one_pos
  · exact Nat.two_pow_pos _

theorem count_pos (keys : Nat) : 0 < count keys := leastPower_pos _

/-- A power of two is the least one that is not below it. -/
theorem leastPower_two_pow (k : Nat) : leastPower (2 ^ k) = 2 ^ k := by
  cases k with
  | zero => rfl
  | succ k =>
    have hk : 2 ^ k ≤ 2 ^ (k + 1) - 1 := by have := Nat.two_pow_pos k; omega
    have hlog : (2 ^ (k + 1) - 1).log2 = k := by
      refine (Nat.log2_eq_iff (by have := Nat.two_pow_pos k; omega)).2 ⟨hk, ?_⟩
      have := Nat.two_pow_pos (k + 1)
      omega
    rw [leastPower, if_neg (by have := Nat.two_pow_pos k; omega), hlog, Nat.pow_eq]

theorem leastPower_count (keys : Nat) : leastPower (count keys) = count keys := by
  unfold count
  generalize max keys 1 = n
  conv => enter [1, 1]; unfold leastPower
  conv => enter [2]; unfold leastPower
  split
  · exact leastPower_two_pow 0
  · exact leastPower_two_pow _

theorem ofKey_lt (key : Bytes) {buckets : Nat} (h : 0 < buckets) : ofKey key buckets < buckets := by
  have : ofKey key buckets ≤ buckets - 1 := Nat.and_le_right
  omega

end Bucket

namespace StorageOrder

variable {α β : Type}

/-! ## Sorting into buckets -/

/-- The entries of each of `count` buckets, in the order in which they come. -/
def spread (count : Nat) (key : α → Bytes) (entries : List α) : List (List α) :=
  (List.range count).map fun bucket =>
    entries.filter fun entry => Bucket.ofKey (key entry) count = bucket

@[simp] theorem length_spread (count : Nat) (key : α → Bytes) (entries : List α) :
    (spread count key entries).length = count := by
  simp [spread]

theorem spread_map (count : Nat) (key : β → Bytes) (f : α → β) (entries : List α) :
    spread count key (entries.map f) = (spread count (key ∘ f) entries).map (List.map f) := by
  simp [spread, List.filter_map, Function.comp_def]

theorem spread_cons (count : Nat) (key : α → Bytes) (entry : α) (entries : List α) :
    spread count key (entry :: entries) =
      (spread count key entries).modify (Bucket.ofKey (key entry) count) (entry :: ·) := by
  apply List.ext_getElem (by simp)
  intro bucket h _
  simp only [spread, List.getElem_map, List.getElem_range, List.getElem_modify, List.filter_cons]
  by_cases hb : Bucket.ofKey (key entry) count = bucket <;> simp [hb]

theorem flatten_spread_perm {count : Nat} (hc : 0 < count) (key : α → Bytes) (entries : List α) :
    (spread count key entries).flatten.Perm entries := by
  induction entries with
  | nil => simp [spread]
  | cons entry entries ih =>
    have hlt : Bucket.ofKey (key entry) count < (spread count key entries).length := by
      simpa using Bucket.ofKey_lt (key entry) hc
    rw [spread_cons, List.modify_eq_take_cons_drop hlt, List.flatten_append, List.flatten_cons,
      List.cons_append]
    refine List.perm_middle.trans (List.Perm.cons entry ?_)
    rwa [← List.flatten_cons, ← List.flatten_append, List.getElem_cons_drop,
      List.take_append_drop]

/-! ## The order -/

/-- The entries in the order in which they are stored, of entries in the order of their keys. -/
def arrange (ordered : Bool) (key : α → Bytes) (entries : List α) : List α :=
  if ordered then entries else (spread (Bucket.count entries.length) key entries).flatten

def Before (ordered : Bool) (count : Nat) (a b : Bytes) : Prop :=
  if ordered then compare a b = .lt
  else
    Bucket.ofKey a count < Bucket.ofKey b count ∨
      Bucket.ofKey a count = Bucket.ofKey b count ∧ compare a b = .lt

theorem arrange_map (ordered : Bool) (key : β → Bytes) (f : α → β) (entries : List α) :
    arrange ordered key (entries.map f) = (arrange ordered (key ∘ f) entries).map f := by
  cases ordered <;> simp [arrange, spread_map, List.map_flatten]

theorem arrange_perm (ordered : Bool) (key : α → Bytes) (entries : List α) :
    (arrange ordered key entries).Perm entries := by
  cases ordered with
  | true => exact List.Perm.refl _
  | false => exact flatten_spread_perm (Bucket.count_pos _) key entries

@[simp] theorem length_arrange (ordered : Bool) (key : α → Bytes) (entries : List α) :
    (arrange ordered key entries).length = entries.length :=
  (arrange_perm ordered key entries).length_eq

@[simp] theorem mem_arrange {ordered : Bool} {key : α → Bytes} {entries : List α} {entry : α} :
    entry ∈ arrange ordered key entries ↔ entry ∈ entries :=
  (arrange_perm ordered key entries).mem_iff

/-- Entries with strictly increasing keys are stored in storage order. -/
theorem pairwise_arrange (ordered : Bool) (key : α → Bytes) {entries : List α}
    (h : entries.Pairwise fun a b => compare (key a) (key b) = .lt) :
    (arrange ordered key entries).Pairwise fun a b =>
      Before ordered (Bucket.count entries.length) (key a) (key b) := by
  cases ordered with
  | true => simpa [arrange, Before] using h
  | false =>
    simp only [arrange, Bool.false_eq_true, if_false, Before]
    rw [spread, List.pairwise_flatten, List.pairwise_map]
    refine ⟨?_, List.pairwise_lt_range.imp fun {b c} hbc => ?_⟩
    · simp only [List.mem_map]
      rintro _ ⟨bucket, -, rfl⟩
      refine (h.filter _).imp_of_mem fun {a c} ha hc hac => Or.inr ⟨?_, hac⟩
      simp only [List.mem_filter, decide_eq_true_eq] at ha hc
      rw [ha.2, hc.2]
    · intro a ha c hc
      simp only [List.mem_filter, decide_eq_true_eq] at ha hc
      exact Or.inl (by rw [ha.2, hc.2]; exact hbc)

end StorageOrder

/-! ## The buckets of a sink -/

/-- The buckets of a sink hold the entries of their keys. -/
theorem Entries.buckets_eq (entries : Entries) :
    entries.buckets =
      StorageOrder.spread (Bucket.count entries.length) (·.1) entries := by
  simp only [buckets]
  generalize Bucket.count entries.length = count
  induction entries with
  | nil => simp [StorageOrder.spread, List.map_const']
  | cons entry entries ih =>
    rw [List.foldr_cons, Array.toList_modify, ih, StorageOrder.spread_cons]

theorem KeyedSink.stored_eq (k : KeyedSink) :
    k.stored = k.sorted.map (StorageOrder.arrange k.ordered (·.1)) := by
  unfold stored
  cases k.ordered with
  | true => exact (List.map_id k.sorted).symm
  | false =>
    simp only [Bool.false_eq_true, if_false]
    apply List.map_congr_left
    intro entries _
    rw [Entries.buckets_eq]
    rfl

end RecordStore
