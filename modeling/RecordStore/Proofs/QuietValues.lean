import RecordStore.Proofs.FlatTexts

/-!
# Values up to their NaNs

The text of a NaN does not tell which one it is, so a value is read back with one quiet NaN for all.
Only keys could be taken for others that way.

## Main definitions

* `Value.quiet` — the value that a text is read back as.
* `Value.Settled` — values whose keys are read back as they are.

## Main statements

* `gatherEntries_quiet` — entries of distinct keys stay what they are.
-/

namespace RecordStore

namespace Value

mutual

/-- The value that the text of a value is read back as: the same one, but one quiet NaN for all
NaNs. -/
def quiet : Value → Value
  | .flat value => .flat value.quiet
  | .seq items => .seq (quietItems items)
  | .keyed entries => .keyed (quietEntries entries)
  | .pair first second => .pair first.quiet second.quiet

def quietItems : List Value → List Value
  | [] => []
  | item :: items => item.quiet :: quietItems items

def quietEntries : List (Value × Option Value) → List (Value × Option Value)
  | [] => []
  | (key, none) :: entries => (key.quiet, none) :: quietEntries entries
  | (key, some item) :: entries => (key.quiet, some item.quiet) :: quietEntries entries

end

@[simp] theorem quiet_flat (value : FlatValue) : (flat value).quiet = .flat value.quiet := rfl

@[simp] theorem quiet_pair (first second : Value) :
    (pair first second).quiet = .pair first.quiet second.quiet := rfl

@[simp] theorem quiet_seq (items : List Value) : (seq items).quiet = .seq (items.map quiet) := by
  have h : quietItems items = items.map quiet := by
    induction items with
    | nil => rfl
    | cons item items ih => rw [quietItems, ih, List.map_cons]
  rw [quiet, h]

@[simp] theorem quiet_keyed (entries : List (Value × Option Value)) :
    (keyed entries).quiet =
      .keyed (entries.map fun entry => (entry.1.quiet, entry.2.map quiet)) := by
  have h : quietEntries entries =
      entries.map fun entry => (entry.1.quiet, entry.2.map quiet) := by
    induction entries with
    | nil => rfl
    | cons entry entries ih =>
      obtain ⟨key, item⟩ := entry
      cases item <;> rw [quietEntries, ih, List.map_cons] <;> rfl
  rw [quiet, h]

/-- Whether no key holds a NaN other than the quiet one. -/
inductive Settled : Value → Prop
  | flat (value : FlatValue) : Settled (.flat value)
  | seq {items : List Value} (h : ∀ item ∈ items, Settled item) : Settled (.seq items)
  | keyed {entries : List (Value × Option Value)}
    (hkey : ∀ entry ∈ entries, entry.1.quiet = entry.1)
    (hitem : ∀ entry ∈ entries, ∀ item, entry.2 = some item → Settled item) :
    Settled (.keyed entries)
  | pair {first second : Value} (hfirst : Settled first) (hsecond : Settled second) :
    Settled (.pair first second)

theorem settled_seq {items : List Value} :
    (seq items).Settled ↔ ∀ item ∈ items, item.Settled := by
  refine ⟨?_, .seq⟩
  intro h
  cases h with
  | seq h => exact h

theorem settled_keyed {entries : List (Value × Option Value)} :
    (keyed entries).Settled ↔ (∀ entry ∈ entries, entry.1.quiet = entry.1) ∧
      ∀ entry ∈ entries, ∀ item, entry.2 = some item → item.Settled := by
  refine ⟨?_, fun h => .keyed h.1 h.2⟩
  intro h
  cases h with
  | keyed hkey hitem => exact ⟨hkey, hitem⟩

theorem settled_pair {first second : Value} :
    (pair first second).Settled ↔ first.Settled ∧ second.Settled := by
  refine ⟨?_, fun h => .pair h.1 h.2⟩
  intro h
  cases h with
  | pair hfirst hsecond => exact ⟨hfirst, hsecond⟩

/-- A value that was read back is read back as it is. -/
theorem Settled.quiet {value : Value} (h : value.Settled) :
    value.quiet.Settled ∧ value.quiet.quiet = value.quiet := by
  induction h with
  | flat value => exact ⟨.flat _, by rw [quiet_flat, quiet_flat, FlatValue.quiet_quiet]⟩
  | seq h ih =>
    simp only [quiet_seq, settled_seq, List.forall_mem_map, List.map_map, seq.injEq]
    exact ⟨fun item hm => (ih item hm).1, List.map_congr_left fun item hm => (ih item hm).2⟩
  | @keyed entries hkey hitem ih =>
    simp only [quiet_keyed, settled_keyed, List.forall_mem_map, List.map_map, keyed.injEq,
      Option.map_eq_some_iff]
    refine ⟨⟨fun entry hm => by rw [hkey entry hm, hkey entry hm], ?_⟩, ?_⟩
    · rintro entry hm _ ⟨item, hitem, rfl⟩
      exact (ih entry hm item hitem).1
    · refine List.map_congr_left fun entry hm => ?_
      obtain ⟨key, _ | item⟩ := entry
      · simp [hkey _ hm]
      · simp [hkey _ hm, (ih _ hm item rfl).2]
  | pair _ _ ih₁ ih₂ =>
    exact ⟨.pair ih₁.1 ih₂.1, by rw [quiet_pair, quiet_pair, ih₁.2, ih₂.2]⟩

end Value

def quietEntry (entry : Bytes × Value × Option Value) : Bytes × Value × Option Value :=
  (entry.1, entry.2.1.quiet, entry.2.2.map Value.quiet)

/-- Entries of distinct keys are gathered in their order as they are read back. -/
theorem gatherEntries_quiet {entries : List (Bytes × Value × Option Value)}
    (h : (entries.map (·.1)).Nodup) :
    gatherEntries (entries.map quietEntry) = (Value.keyed (entries.map (·.2))).quiet := by
  rw [gatherEntries_of_nodup (by rwa [List.map_map]), Value.quiet_keyed, List.map_map,
    List.map_map]
  rfl

end RecordStore
