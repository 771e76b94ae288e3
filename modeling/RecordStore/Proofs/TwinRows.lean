import RecordStore.Proofs.LegibleRows
import RecordStore.Proofs.TwinSchemas

/-!
# Rows of twins

Twins store the entries of keyed containers in different orders, so below a map they are built from
the same texts in different orders. Since texts are split where they were put together, as many rows
come from them in any order, and as many parts are skipped; so two builds of twins stop at the same
node or at none. The rows of one text are similar.

## Main definitions

* `counted` — how many rows a build gives and how many parts it skips, or why it stops.
* `Reordered` — chunks that may come in another order.

## Main statements

* `Schema.Twins.counted_outcome` — builds of twins count the same.
* `Schema.Twins.similar_rows` — the rows of twins are equal up to the order of entries.
-/

namespace RecordStore

/-! ## Counting -/

def counted : Except Halt (List Value × Nat) → Except BuildError (Nat × Nat)
  | .ok (rows, skipped) => .ok (rows.length, skipped)
  | .error halt => .error halt.error

/-- Two levels that have the same number of texts staged count the same, if their children and what
they make of the rows of these do. -/
theorem counted_childRows {front front' : Bytes} {child child' : Schema} {expected : Nat}
    {rows rows' : Except Halt (List Value × Nat)}
    {next next' : List Value × Nat → Except Halt (List Value × Nat)}
    (hc : child.ordinal = child'.ordinal) (h : counted rows = counted rows')
    (hnext : ∀ items items' skipped, items.length = expected → items'.length = expected →
      counted (next (items, skipped)) = counted (next' (items', skipped))) :
    counted (childRows front child expected rows >>= next) =
      counted (childRows front' child' expected rows' >>= next') := by
  cases rows with
  | error halt =>
    cases rows' with
    | error halt' => exact h
    | ok => cases h
  | ok result =>
    cases rows' with
    | error => cases h
    | ok result' =>
      obtain ⟨items, skipped⟩ := result
      obtain ⟨items', skipped'⟩ := result'
      simp only [counted, Except.ok.injEq, Prod.mk.injEq] at h
      obtain ⟨hlength, rfl⟩ := h
      rw [childRows, childRows, ← hlength]
      by_cases hlen : expected = items.length
      · rw [if_pos hlen, if_pos hlen, ok_bind, ok_bind]
        exact hnext items items' skipped hlen.symm (hlength.symm.trans hlen.symm)
      · rw [if_neg hlen, if_neg hlen, error_bind, error_bind, counted, counted, Halt.error,
          Halt.error, hc]

/-! ## Chunks in another order -/

/-- Whether chunks may come in another order: those that are split at a delimiter may. -/
def Reordered (outer : Option Bytes) (chunks chunks' : List Bytes) : Prop :=
  chunks = chunks' ∨ ∃ d, outer = some d ∧ d ≠ [] ∧ chunks.Perm chunks'

theorem Reordered.perm {outer : Option Bytes} {chunks chunks' : List Bytes}
    (h : Reordered outer chunks chunks') : chunks.Perm chunks' := by
  rcases h with rfl | ⟨-, -, -, h⟩
  · exact .refl _
  · exact h

section

variable {α β : Type}

theorem kept_perm {parts parts' : List (Option α)} (h : parts.Perm parts') :
    (kept parts).Perm (kept parts') :=
  h.filterMap id

theorem missing_perm {parts parts' : List (Option α)} (h : parts.Perm parts') :
    missing parts = missing parts' :=
  h.countP_eq _

theorem flatten_map_perm {f g : α → List β} {chunks chunks' : List α} (h : chunks.Perm chunks')
    (hfg : ∀ chunk, (f chunk).Perm (g chunk)) :
    (chunks.map f).flatten.Perm (chunks'.map g).flatten := by
  rw [← List.flatMap_def, ← List.flatMap_def]
  exact (List.Perm.flatMap_right f h).trans (List.Perm.flatMap_left _ fun chunk _ => hfg chunk)

end

namespace Schema.Twins

theorem counted_flat {node node' : FlatNode} (hn : node.Twins node') {outer : Option Bytes}
    {chunks chunks' : List Bytes} (hc : Reordered outer chunks chunks') :
    counted ((Schema.flat node).outcome outer chunks) =
      counted ((Schema.flat node').outcome outer chunks') := by
  rw [outcome, outcome, ← hn.rows_eq]
  rcases hc with rfl | ⟨d, rfl, -, hperm⟩
  · rfl
  · have hdecoded : (node.decoded chunks).Perm (node.decoded chunks') := hperm.map _
    rw [FlatNode.rows_eq, FlatNode.rows_eq, counted, counted, missing_perm hdecoded,
      List.length_map, List.length_map, (kept_perm hdecoded).length_eq]

/-- Builds of twins count the same. -/
theorem counted_outcome {s s' : Schema} (h : s.Twins s') (hs : s.Separated) {outer : Option Bytes}
    {chunks chunks' : List Bytes} (hc : Reordered outer chunks chunks') :
    counted (s.outcome outer chunks) = counted (s'.outcome outer chunks') := by
  induction h generalizing outer chunks chunks' with
  | flat hn => exact counted_flat hn hc
  | @sequence label label' element element' sep args hl h ih =>
    rw [outcome_sequence hs.1, outcome_sequence hs.1, h.restage?_eq]
    have hinstances := hc.perm.map fun chunk =>
      (Records.split sep chunk).map (restage? element' sep)
    have htexts := (hinstances.map kept).flatten
    dsimp only
    rw [htexts.length_eq, missing_perm hinstances.flatten]
    refine counted_childRows h.ordinal_eq (ih hs.2 (.inr ⟨sep, rfl, hs.1, htexts⟩)) ?_
    intro items items' skipped _ _
    simp [counted, hc.perm.length_eq]
  | @set label label' keys keys' hl hk =>
    have hinstances := hc.perm.map fun chunk =>
      (Records.split keys'.sep chunk).map keys'.key?
    simp only [outcome, counted, hk.sep, hk.key?_eq, missing_perm hinstances.flatten,
      List.length_map, hc.perm.length_eq]
  | @map label label' keys keys' value value' sep hl hk h ih =>
    rw [outcome_map hs.2.2.1, outcome_map hs.2.2.1, hk.sep, hk.entryOf?_eq h]
    have hinstances := hc.perm.map fun chunk =>
      (Records.mapEntries keys'.sep sep chunk).map (entryOf? keys' value' sep)
    have hstored := flatten_map_perm hinstances fun parts =>
      keys.arranged_perm keys' (kept parts)
    dsimp only
    rw [hstored.length_eq, missing_perm hinstances.flatten]
    refine counted_childRows h.ordinal_eq
      (ih hs.2.2.2 (.inr ⟨sep, rfl, hs.2.2.1, hstored.map _⟩)) ?_
    intro items items' skipped _ _
    simp [counted, hc.perm.length_eq]
  | @pair label label' first first' second second' sep hl h₁ h₂ ih₁ ih₂ =>
    rcases hc with rfl | ⟨d, rfl, hd, hperm⟩
    · rw [outcome, outcome, restagePair?_eq h₁ h₂]
      refine counted_childRows h₁.ordinal_eq (ih₁ hs.2.1 (.inl rfl)) ?_
      intro lefts lefts' skipped hleft hleft'
      refine counted_childRows h₂.ordinal_eq (ih₂ hs.2.2 (.inl rfl)) ?_
      intro rights rights' skipped' hright hright'
      simp [counted, hleft, hleft', hright, hright']
    · rw [outcome_pair hs.1 hd, outcome_pair hs.1 hd, restagePair?_eq h₁ h₂]
      have hsides := hperm.map (restagePair? first' second' sep (some d))
      have hpairs := kept_perm hsides
      dsimp only
      rw [hpairs.length_eq, missing_perm hsides]
      refine counted_childRows h₁.ordinal_eq
        (ih₁ hs.2.1 (.inr ⟨sep, rfl, hs.1, hpairs.map _⟩)) ?_
      intro lefts lefts' skipped hleft hleft'
      refine counted_childRows h₂.ordinal_eq (ih₂ hs.2.2 (.inr ⟨d, rfl, hd, hpairs.map _⟩)) ?_
      intro rights rights' skipped' hright hright'
      simp [counted, hleft, hleft', hright, hright']

/-- A set of characters counts a text of two as skipped, in either order. -/
example : ∀ ordered,
    counted ((Schema.set ⟨0, "T(c),"⟩ ⟨⟨⟨1, "c"⟩, .primitive .char⟩, [0x2c], ordered, []⟩).outcome
      none [Bytes.ofText "b,xy,a,"]) = .ok (1, 1) := by
  decide +kernel

end Schema.Twins

/-! ## Rows of each text -/

namespace Schema

def rowOf (s : Schema) (d text : Bytes) : Value :=
  ((s.rows? (some d) [text]).bind fun result => result.1.head?).getD (.seq [])

theorem eq_map_rowOf {s : Schema} (hs : s.Separated) {d : Bytes} (hd : d ≠ [])
    {texts : List Bytes} {rows : List Value} {skipped : Nat}
    (h : s.rows? (some d) texts = some (rows, skipped)) (hl : texts.length = rows.length) :
    rows = texts.map (s.rowOf d) ∧
      ∀ text ∈ texts, ∃ skipped, s.rows? (some d) [text] = some ([s.rowOf d text], skipped) := by
  induction texts generalizing rows skipped with
  | nil =>
    obtain rfl := List.length_eq_zero_iff.1 hl.symm
    exact ⟨rfl, by simp⟩
  | cons text texts ih =>
    rw [← List.singleton_append, rows?_append hs hd] at h
    cases hfirst : s.rows? (some d) [text] with
    | none => simp [hfirst] at h
    | some first =>
      cases hrest : s.rows? (some d) texts with
      | none => simp [hrest] at h
      | some rest =>
        have hle := length_le_of_rows? hs hd first hfirst
        have hle' := length_le_of_rows? hs hd rest hrest
        simp only [hfirst, hrest, bothRows_some, Option.some.injEq, Prod.mk.injEq] at h
        rw [← h.1, List.length_cons, List.length_append] at hl
        rw [List.length_singleton] at hle
        -- no text has more than one row, so each has one
        obtain ⟨row, hrow⟩ := List.length_eq_one_iff.1 (by omega : first.1.length = 1)
        obtain ⟨hrows, hall⟩ := ih hrest (by omega)
        have hrowOf : s.rowOf d text = row := by
          rw [rowOf, hfirst, Option.bind_some, hrow]
          rfl
        refine ⟨?_, List.forall_mem_cons.2 ⟨⟨first.2, ?_⟩, hall⟩⟩
        · rw [← h.1, hrow, hrows, List.map_cons, hrowOf]
          rfl
        · rw [hfirst, hrowOf, ← hrow]

end Schema

theorem zipWith_mapRow_map {stored : List (List (Bytes × FlatValue × Bytes))}
    (row : Bytes → Value) :
    List.zipWith mapRow stored ((stored.map List.length).splitLengths
        ((stored.flatten.map (·.2.2)).map row)) =
      stored.map fun entries =>
        .keyed (entries.map fun entry => (.flat entry.2.1, some (row entry.2.2))) := by
  induction stored with
  | nil => rfl
  | cons entries stored ih =>
    have hlength : entries.length = ((entries.map (·.2.2)).map row).length := by simp
    rw [List.map_cons, List.splitLengths_cons, List.flatten_cons, List.map_append,
      List.map_append, hlength, List.take_left, List.drop_left, List.zipWith_cons_cons, ih,
      List.map_cons]
    congr 1
    simp [mapRow, List.zipWith_map_right, List.zipWith_self]

/-! ## Similar rows -/

theorem forall₂_splitLengths {α β : Type} {R : α → β → Prop} {items : List α} {items' : List β}
    (h : List.Forall₂ R items items') (lengths : List Nat) :
    List.Forall₂ (List.Forall₂ R) (lengths.splitLengths items) (lengths.splitLengths items') := by
  induction lengths generalizing items items' with
  | nil => exact .nil
  | cons length lengths ih =>
    rw [List.splitLengths_cons, List.splitLengths_cons]
    exact .cons (List.forall₂_take length h) (ih (List.forall₂_drop length h))

namespace Value

theorem similar_setRow {entries entries' : List (Bytes × FlatValue)} (h : entries.Perm entries') :
    Similar (setRow entries) (setRow entries') := by
  refine .keyed ?_ (h.map fun entry => (flat entry.2, none))
  rw [List.forall₂_map_left_iff, List.forall₂_map_right_iff]
  exact List.forall₂_same.2 fun entry _ => .member _

/-- Entries in another order, with similar values. -/
theorem similar_keyed {entries entries' : List (Bytes × FlatValue × Bytes)}
    {row row' : Bytes → Value} (h : entries.Perm entries')
    (hrow : ∀ entry ∈ entries, Similar (row entry.2.2) (row' entry.2.2)) :
    Similar (.keyed (entries.map fun entry => (.flat entry.2.1, some (row entry.2.2))))
      (.keyed (entries'.map fun entry => (.flat entry.2.1, some (row' entry.2.2)))) := by
  refine .keyed ?_ (h.map fun entry => (flat entry.2.1, some (row' entry.2.2)))
  rw [List.forall₂_map_left_iff, List.forall₂_map_right_iff]
  exact List.forall₂_same.2 fun entry hm => .entry _ (hrow entry hm)

theorem forall₂_similar_pair {lefts lefts' rights rights' : List Value}
    (hleft : List.Forall₂ Similar lefts lefts') (hright : List.Forall₂ Similar rights rights') :
    List.Forall₂ Similar (List.zipWith pair lefts rights) (List.zipWith pair lefts' rights') := by
  induction hleft generalizing rights rights' with
  | nil => exact .nil
  | cons h _ ih =>
    cases hright with
    | nil => exact .nil
    | cons h' hright => exact .cons (.pair h h') (ih hright)

end Value

namespace Schema.Twins

/-- The rows of twins are equal up to the order of entries. -/
theorem similar_rows {s s' : Schema} (h : s.Twins s') (hs : s.Separated) {outer : Option Bytes}
    {chunks : List Bytes} {rows rows' : List Value} {skipped skipped' : Nat}
    (hr : s.rows? outer chunks = some (rows, skipped))
    (hr' : s'.rows? outer chunks = some (rows', skipped')) :
    List.Forall₂ Value.Similar rows rows' := by
  induction h generalizing outer chunks rows rows' skipped skipped' with
  | @flat node node' hn =>
    rw [rows?_of_flat, Option.some.injEq] at hr hr'
    rw [← hn.rows_eq, hr, Prod.mk.injEq] at hr'
    obtain ⟨rfl, -⟩ := hr'
    have hform := node.holds_rows outer chunks
    rw [hr] at hform
    refine List.forall₂_same.2 fun row hm => ?_
    obtain ⟨value, rfl, -⟩ := Schema.Holds.flat_iff.1 (hform row hm)
    exact .flat value
  | @sequence label label' element element' sep args hl h ih =>
    simp only [rows?_of_sequence, Option.bind_eq_some_iff, Prod.exists,
      Option.ite_none_right_eq_some, Option.some.injEq, Prod.mk.injEq] at hr hr'
    obtain ⟨items, _, hrows, -, rfl, -⟩ := hr
    obtain ⟨items', _, hrows', -, rfl, -⟩ := hr'
    rw [h.restage?_eq] at hrows ⊢
    rw [List.forall₂_map_left_iff, List.forall₂_map_right_iff]
    exact (forall₂_splitLengths (ih hs.2 hrows hrows') _).imp fun _ _ => .seq
  | @set label label' keys keys' hl hk =>
    simp only [rows?_of_set, Option.some.injEq, Prod.mk.injEq] at hr hr'
    obtain ⟨rfl, -⟩ := hr
    obtain ⟨rfl, -⟩ := hr'
    rw [hk.sep, hk.key?_eq, List.forall₂_map_left_iff, List.forall₂_map_right_iff]
    exact List.forall₂_same.2 fun parts _ =>
      Value.similar_setRow (keys.arranged_perm keys' (kept parts))
  | @map label label' keys keys' value value' sep hl hk h ih =>
    obtain ⟨-, -, hsep, hvalue⟩ := hs
    rw [rows?_map hsep] at hr hr'
    rw [hk.sep, hk.entryOf?_eq h] at hr
    simp only [Option.bind_eq_some_iff, Prod.exists, Option.ite_none_right_eq_some,
      Option.some.injEq, Prod.mk.injEq] at hr hr'
    generalize (chunks.map fun chunk => (Records.mapEntries keys'.sep sep chunk).map
      (entryOf? keys' value' sep)) = instances at hr hr'
    obtain ⟨items, _, hrows, hlen, rfl, -⟩ := hr
    obtain ⟨items', _, hrows', hlen', rfl, -⟩ := hr'
    obtain ⟨rfl, htexts⟩ := eq_map_rowOf hvalue hsep hrows (by rwa [List.length_map])
    obtain ⟨rfl, htexts'⟩ :=
      eq_map_rowOf (h.separated hvalue) hsep hrows' (by rwa [List.length_map])
    rw [zipWith_mapRow_map, zipWith_mapRow_map, List.map_map, List.map_map,
      List.forall₂_map_left_iff, List.forall₂_map_right_iff]
    refine List.forall₂_same.2 fun parts hparts => ?_
    have hperm := keys.arranged_perm keys' (kept parts)
    refine Value.similar_keyed hperm fun entry hm => ?_
    -- the text of the entry is staged for both twins
    obtain ⟨_, hrow⟩ := htexts entry.2.2 (List.mem_map_of_mem
      (List.mem_flatten_of_mem (List.mem_map_of_mem hparts) hm))
    obtain ⟨_, hrow'⟩ := htexts' entry.2.2 (List.mem_map_of_mem
      (List.mem_flatten_of_mem (List.mem_map_of_mem hparts) (hperm.subset hm)))
    cases ih hvalue hrow hrow' with
    | cons hsimilar => exact hsimilar
  | pair hl h₁ h₂ ih₁ ih₂ =>
    simp only [rows?_of_pair, Option.bind_eq_some_iff, Prod.exists,
      Option.ite_none_right_eq_some, Option.some.injEq, Prod.mk.injEq] at hr hr'
    obtain ⟨lefts, _, hlefts, -, rights, _, hrights, -, rfl, -⟩ := hr
    obtain ⟨lefts', _, hlefts', -, rights', _, hrights', -, rfl, -⟩ := hr'
    rw [restagePair?_eq h₁ h₂] at hlefts hrights
    exact Value.forall₂_similar_pair (ih₁ hs.2.1 hlefts hlefts') (ih₂ hs.2.2 hrights hrights')

end Schema.Twins

end RecordStore
