import Mathlib.Data.Option.Basic
import RecordStore.Proofs.ParsedSchemas
import RecordStore.Proofs.RowsOfText

/-!
# Rows of several chunks

The rows of chunks are the rows of each, one after the other. All chunks share the texts that a
level stages for its child, but no chunk has more rows than there are texts for it, so the check of
their number over all chunks fails if it fails for one of them.

## Main definitions

* `bothRows` — two results one after the other, if there are both.

## Main statements

* `Schema.rows?_append` — the rows of chunks in two parts.
* `Schema.rows?_eq_some_iff` — the rows of chunks by the rows of each.
-/

namespace RecordStore

def bothRows : Option (List Value × Nat) → Option (List Value × Nat) → Option (List Value × Nat)
  | some (rows, skipped), some (rows', skipped') => some (rows ++ rows', skipped + skipped')
  | _, _ => none

@[simp] theorem none_bothRows (y : Option (List Value × Nat)) : bothRows none y = none := rfl

@[simp] theorem bothRows_none (x : Option (List Value × Nat)) : bothRows x none = none := by
  cases x <;> rfl

@[simp] theorem bothRows_some (x y : List Value × Nat) :
    bothRows (some x) (some y) = some (x.1 ++ y.1, x.2 + y.2) := rfl

/-- A check of the number of rows over both parts checks each of them, as long as no part has too
many. -/
theorem bothRows_check {n n' : Nat} {x y : Option (List Value × Nat)}
    {next next' joint : List Value × Nat → Option (List Value × Nat)}
    (hx : ∀ result ∈ x, result.1.length ≤ n) (hy : ∀ result ∈ y, result.1.length ≤ n')
    (hjoint : ∀ rows skipped rows' skipped', rows.length = n → rows'.length = n' →
      joint (rows ++ rows', skipped + skipped') =
        bothRows (next (rows, skipped)) (next' (rows', skipped'))) :
    ((bothRows x y).bind fun result =>
        if n + n' = result.1.length then joint result else none) =
      bothRows (x.bind fun result => if n = result.1.length then next result else none)
        (y.bind fun result => if n' = result.1.length then next' result else none) := by
  cases x with
  | none => rfl
  | some result =>
    cases y with
    | none => simp
    | some result' =>
      have hlength := hx result rfl
      have hlength' := hy result' rfl
      simp only [bothRows_some, Option.bind_some, List.length_append]
      by_cases h : n = result.1.length
      · by_cases h' : n' = result'.1.length
        · rw [if_pos h, if_pos h', if_pos (by omega)]
          exact hjoint _ _ _ _ h.symm h'.symm
        · rw [if_neg h', if_neg (by omega), bothRows_none]
      · rw [if_neg h, if_neg (by omega), none_bothRows]

theorem splitLengths_append {α : Type} {lengths : List Nat} {items : List α}
    (h : lengths.sum = items.length) (lengths' : List Nat) (items' : List α) :
    (lengths ++ lengths').splitLengths (items ++ items') =
      lengths.splitLengths items ++ lengths'.splitLengths items' := by
  induction lengths generalizing items with
  | nil =>
    obtain rfl : items = [] := List.length_eq_zero_iff.1 h.symm
    rfl
  | cons length lengths ih =>
    rw [List.sum_cons] at h
    have hdrop : lengths.sum = (items.drop length).length := by
      rw [List.length_drop]
      omega
    have hle : length ≤ items.length := by omega
    rw [List.cons_append, List.splitLengths_cons, List.splitLengths_cons,
      List.take_append_of_le_length hle, List.drop_append_of_le_length hle, ih hdrop,
      List.cons_append]

namespace FlatNode

theorem rows_eq (node : FlatNode) (d : Bytes) (chunks : List Bytes) :
    node.rows (some d) chunks =
      ((kept (node.decoded chunks)).map .flat, missing (node.decoded chunks)) := by
  unfold rows
  split <;> simp_all

end FlatNode

/-! ## Texts that are staged

A level stages only texts that delimit cleanly, so its child gets these very texts. -/

theorem delimitsCleanly_of_restage? {s : Schema} {delim chunk text : Bytes}
    (h : restage? s delim chunk = some text) : Records.delimitsCleanly text delim = true := by
  rw [restage?, Option.filter_eq_some_iff] at h
  exact h.2

theorem delimitsCleanly_of_entryOf? {keys : KeySpec} {value : Schema} {sep : Bytes}
    {record : Records.Entry} {entry : Bytes × FlatValue × Bytes}
    (h : entryOf? keys value sep record = some entry) :
    Records.delimitsCleanly entry.2.2 sep = true := by
  cases record with
  | broken => cases h
  | cut keyText valueText =>
    simp only [entryOf?, Option.bind_eq_bind, Option.bind_eq_some_iff, Prod.exists,
      Option.pure_def, Option.some.injEq] at h
    obtain ⟨bytes, key, -, text, htext, rfl⟩ := h
    exact delimitsCleanly_of_restage? htext

theorem delimitsCleanly_of_restagePair? {first second : Schema} {sep chunk : Bytes}
    {outer : Option Bytes} {sides : Bytes × Bytes}
    (h : restagePair? first second sep outer chunk = some sides) :
    Records.delimitsCleanly sides.1 sep = true ∧
      outer.all (Records.delimitsCleanly sides.2) = true := by
  simp only [restagePair?, Option.bind_eq_bind, Option.bind_eq_some_iff, Prod.exists,
    Option.pure_def, Option.some.injEq] at h
  obtain ⟨left, right, -, a, ha, b, -, u, hb, rfl⟩ := h
  rw [Option.guard_eq_some'] at hb
  exact ⟨delimitsCleanly_of_restage? ha, hb⟩

namespace Schema

theorem outcome_sequence {label : Label} {element : Schema} {sep : Bytes} {args : List String}
    (hsep : sep ≠ []) (outer : Option Bytes) (chunks : List Bytes) :
    (sequence label element sep args).outcome outer chunks =
      let instances := chunks.map fun chunk =>
        (Records.split sep chunk).map (restage? element sep)
      let texts := instances.map kept
      childRows (Section.write .shape label.ordinal args
          (Section.shapeBody (texts.map List.length))) element texts.flatten.length
          (element.outcome (some sep) texts.flatten) >>= fun result =>
        .ok (((texts.map List.length).splitLengths result.1).map .seq,
          missing instances.flatten + result.2) := by
  rw [outcome]
  dsimp only
  rw [Records.split_staged hsep]
  · rfl
  · intro text hm
    obtain ⟨texts, ht, hm⟩ := List.mem_flatten.1 hm
    obtain ⟨parts, hp, rfl⟩ := List.mem_map.1 ht
    obtain ⟨chunk, -, rfl⟩ := List.mem_map.1 hp
    obtain ⟨piece, -, hpiece⟩ := List.mem_map.1 (mem_kept.1 hm)
    exact delimitsCleanly_of_restage? hpiece

theorem outcome_map {label : Label} {keys : KeySpec} {value : Schema} {sep : Bytes}
    (hsep : sep ≠ []) (outer : Option Bytes) (chunks : List Bytes) :
    (map label keys value sep).outcome outer chunks =
      let instances := chunks.map fun chunk =>
        (Records.mapEntries keys.sep sep chunk).map (entryOf? keys value sep)
      let stored := instances.map fun parts => keys.arranged (kept parts)
      childRows (Section.write (Container.keyedTag keys) label.ordinal keys.args
          (StoredKeys.body ⟨false, keys.ordered, stored.map (List.map (·.1))⟩)) value
          stored.flatten.length
          (value.outcome (some sep) (stored.flatten.map (·.2.2))) >>= fun result =>
        .ok (List.zipWith mapRow stored ((stored.map List.length).splitLengths result.1),
          missing instances.flatten + result.2) := by
  rw [outcome]
  dsimp only
  rw [Records.split_staged hsep, List.length_map]
  · rfl
  · intro text hm
    obtain ⟨entry, he, rfl⟩ := List.mem_map.1 hm
    obtain ⟨entries, hm, he⟩ := List.mem_flatten.1 he
    obtain ⟨parts, hp, rfl⟩ := List.mem_map.1 hm
    obtain ⟨chunk, -, rfl⟩ := List.mem_map.1 hp
    obtain ⟨record, -, hrecord⟩ := List.mem_map.1 (mem_kept.1 (KeySpec.mem_of_mem_arranged he))
    exact delimitsCleanly_of_entryOf? hrecord

theorem outcome_pair {label : Label} {first second : Schema} {sep d : Bytes} (hsep : sep ≠ [])
    (hd : d ≠ []) (chunks : List Bytes) :
    (pair label first second sep).outcome (some d) chunks =
      let sides := chunks.map (restagePair? first second sep (some d))
      let pairs := kept sides
      let front := Section.write .pair label.ordinal [] (Section.pairBody pairs.length)
      childRows front first pairs.length (first.outcome (some sep) (pairs.map (·.1))) >>=
        fun lefts => childRows (front ++ first.sections lefts.1) second pairs.length
          (second.outcome (some d) (pairs.map (·.2))) >>= fun rights =>
        .ok (List.zipWith .pair lefts.1 rights.1, missing sides + lefts.2 + rights.2) := by
  have hclean : ∀ sides ∈ kept (chunks.map (restagePair? first second sep (some d))),
      Records.delimitsCleanly sides.1 sep = true ∧ Records.delimitsCleanly sides.2 d = true := by
    intro sides hm
    obtain ⟨chunk, -, hchunk⟩ := List.mem_map.1 (mem_kept.1 hm)
    exact delimitsCleanly_of_restagePair? hchunk
  have hfirst : Records.split sep (staged sep
      ((kept (chunks.map (restagePair? first second sep (some d)))).map (·.1))) =
        (kept (chunks.map (restagePair? first second sep (some d)))).map (·.1) :=
    Records.split_staged hsep fun text hm => by
      obtain ⟨sides, hs, rfl⟩ := List.mem_map.1 hm
      exact (hclean sides hs).1
  have hsecond : Records.split d (staged d
      ((kept (chunks.map (restagePair? first second sep (some d)))).map (·.2))) =
        (kept (chunks.map (restagePair? first second sep (some d)))).map (·.2) :=
    Records.split_staged hd fun text hm => by
      obtain ⟨sides, hs, rfl⟩ := List.mem_map.1 hm
      exact (hclean sides hs).2
  rw [outcome]
  simp only [hfirst, hsecond, Option.isNone_some, Bool.false_and, Bool.false_eq_true, if_false,
    Option.getD_some, Records.splitOptional]
  rfl

theorem rows?_sequence {label : Label} {element : Schema} {sep : Bytes} {args : List String}
    (hsep : sep ≠ []) (outer : Option Bytes) (chunks : List Bytes) :
    (sequence label element sep args).rows? outer chunks =
      let instances := chunks.map fun chunk =>
        (Records.split sep chunk).map (restage? element sep)
      let texts := instances.map kept
      (element.rows? (some sep) texts.flatten).bind fun result =>
        if texts.flatten.length = result.1.length then
          some (((texts.map List.length).splitLengths result.1).map .seq,
            missing instances.flatten + result.2)
        else none := by
  rw [rows?, outcome_sequence hsep]
  exact toOption_bind_childRows ..

theorem rows?_map {label : Label} {keys : KeySpec} {value : Schema} {sep : Bytes}
    (hsep : sep ≠ []) (outer : Option Bytes) (chunks : List Bytes) :
    (map label keys value sep).rows? outer chunks =
      let instances := chunks.map fun chunk =>
        (Records.mapEntries keys.sep sep chunk).map (entryOf? keys value sep)
      let stored := instances.map fun parts => keys.arranged (kept parts)
      (value.rows? (some sep) (stored.flatten.map (·.2.2))).bind fun result =>
        if stored.flatten.length = result.1.length then
          some (List.zipWith mapRow stored ((stored.map List.length).splitLengths result.1),
            missing instances.flatten + result.2)
        else none := by
  rw [rows?, outcome_map hsep]
  exact toOption_bind_childRows ..

theorem rows?_pair {label : Label} {first second : Schema} {sep d : Bytes} (hsep : sep ≠ [])
    (hd : d ≠ []) (chunks : List Bytes) :
    (pair label first second sep).rows? (some d) chunks =
      let sides := chunks.map (restagePair? first second sep (some d))
      let pairs := kept sides
      (first.rows? (some sep) (pairs.map (·.1))).bind fun lefts =>
        if pairs.length = lefts.1.length then
          (second.rows? (some d) (pairs.map (·.2))).bind fun rights =>
            if pairs.length = rights.1.length then
              some (List.zipWith .pair lefts.1 rights.1, missing sides + lefts.2 + rights.2)
            else none
        else none := by
  rw [rows?, outcome_pair hsep hd]
  simp only [toOption_bind_childRows]
  rfl

/-! ## Rows of chunks -/

variable {d : Bytes}

theorem length_le_of_rows? {s : Schema} (hs : s.Separated) (hd : d ≠ []) {chunks : List Bytes} :
    ∀ result ∈ s.rows? (some d) chunks, result.1.length ≤ chunks.length := by
  intro result h
  rw [Option.mem_def] at h
  cases s with
  | flat node =>
    rw [rows?_of_flat, FlatNode.rows_eq, Option.some.injEq] at h
    rw [← h, List.length_map]
    exact Nat.le_trans (length_kept_le _) (by simp [FlatNode.decoded])
  | sequence label element sep args =>
    simp only [rows?_sequence hs.1, Option.bind_eq_some_iff, Option.ite_none_right_eq_some,
      Option.some.injEq] at h
    obtain ⟨items, -, -, rfl⟩ := h
    simp
  | set label keys =>
    rw [rows?_of_set, Option.some.injEq] at h
    simp [← h]
  | map label keys value sep =>
    simp only [rows?_map hs.2.2.1, Option.bind_eq_some_iff, Option.ite_none_right_eq_some,
      Option.some.injEq] at h
    obtain ⟨items, -, -, rfl⟩ := h
    simp
  | pair label first second sep =>
    simp only [rows?_pair hs.1 hd, Option.bind_eq_some_iff, Option.ite_none_right_eq_some,
      Option.some.injEq] at h
    obtain ⟨lefts, -, hleft, rights, -, hright, rfl⟩ := h
    have := length_kept_le (chunks.map (restagePair? first second sep (some d)))
    rw [List.length_map] at this
    simp only [List.length_zipWith]
    omega

theorem length_rows?_le {s : Schema} (hs : s.Separated) (hd : d ≠ []) {chunks : List Bytes}
    {n : Nat} (hn : chunks.length = n) :
    ∀ result ∈ s.rows? (some d) chunks, result.1.length ≤ n :=
  hn ▸ length_le_of_rows? hs hd

theorem rows?_nil {s : Schema} (hs : s.Separated) (hd : d ≠ []) :
    s.rows? (some d) [] = some ([], 0) := by
  induction s generalizing d with
  | flat node =>
    rw [rows?_of_flat, FlatNode.rows_eq]
    rfl
  | sequence label element sep args ih =>
    rw [rows?_sequence hs.1]
    simp [ih hs.2 hs.1, missing]
  | set label keys => rfl
  | map label keys value sep ih =>
    rw [rows?_map hs.2.2.1]
    simp [ih hs.2.2.2 hs.2.2.1, missing]
  | pair label first second sep ih₁ ih₂ =>
    rw [rows?_pair hs.1 hd]
    simp [ih₁ hs.2.1 hs.1, ih₂ hs.2.2 hd, missing, kept]

/-- The rows of chunks in two parts are the rows of both. -/
theorem rows?_append {s : Schema} (hs : s.Separated) (hd : d ≠ []) (chunks more : List Bytes) :
    s.rows? (some d) (chunks ++ more) =
      bothRows (s.rows? (some d) chunks) (s.rows? (some d) more) := by
  induction s generalizing d chunks more with
  | flat node =>
    simp only [rows?_of_flat, FlatNode.rows_eq, FlatNode.decoded, List.map_append, kept_append,
      missing_append, bothRows_some]
  | sequence label element sep args ih =>
    simp only [rows?_sequence hs.1, List.map_append, List.flatten_append, List.length_append,
      ih hs.2 hs.1]
    refine bothRows_check (length_rows?_le hs.2 hs.1 rfl) (length_rows?_le hs.2 hs.1 rfl)
      fun rows skipped rows' skipped' hlength hlength' => ?_
    rw [List.length_flatten] at hlength
    simp only [bothRows_some, splitLengths_append hlength.symm, List.map_append, missing_append,
      Option.some.injEq, Prod.mk.injEq, true_and]
    omega
  | set label keys =>
    simp only [rows?_of_set, List.map_append, List.flatten_append, missing_append, bothRows_some]
  | map label keys value sep ih =>
    simp only [rows?_map hs.2.2.1, List.map_append, List.flatten_append, List.length_append,
      ih hs.2.2.2 hs.2.2.1]
    refine bothRows_check (length_rows?_le hs.2.2.2 hs.2.2.1 (List.length_map _))
      (length_rows?_le hs.2.2.2 hs.2.2.1 (List.length_map _))
      fun rows skipped rows' skipped' hlength hlength' => ?_
    rw [List.length_flatten] at hlength
    simp only [bothRows_some, splitLengths_append hlength.symm, missing_append,
      Option.some.injEq, Prod.mk.injEq]
    refine ⟨List.zipWith_append (by simp), by omega⟩
  | pair label first second sep ih₁ ih₂ =>
    simp only [rows?_pair hs.1 hd, List.map_append, kept_append, List.length_append,
      ih₁ hs.2.1 hs.1, ih₂ hs.2.2 hd]
    refine bothRows_check (length_rows?_le hs.2.1 hs.1 (List.length_map _))
      (length_rows?_le hs.2.1 hs.1 (List.length_map _))
      fun lefts skipped lefts' skipped' hleft hleft' => ?_
    refine bothRows_check (length_rows?_le hs.2.2 hd (List.length_map _))
      (length_rows?_le hs.2.2 hd (List.length_map _))
      fun rights skipped rights' skipped' hright hright' => ?_
    simp only [bothRows_some, missing_append, Option.some.injEq, Prod.mk.injEq]
    refine ⟨List.zipWith_append (hleft.trans hright.symm), by omega⟩

/-- The rows of chunks are the rows of each, one after the other. -/
theorem rows?_eq_some_iff {s : Schema} (hs : s.Separated) (hd : d ≠ []) {chunks : List Bytes}
    {rows : List Value} {skipped : Nat} :
    s.rows? (some d) chunks = some (rows, skipped) ↔
      ∃ results, List.Forall₂ (fun chunk result => s.rows? (some d) [chunk] = some result)
          chunks results ∧
        rows = results.flatMap (·.1) ∧ skipped = (results.map (·.2)).sum := by
  induction chunks generalizing rows skipped with
  | nil =>
    rw [rows?_nil hs hd]
    constructor
    · intro h
      obtain ⟨rfl, rfl⟩ := Prod.mk.inj (Option.some.inj h)
      exact ⟨[], .nil, rfl, rfl⟩
    · rintro ⟨results, hresults, rfl, rfl⟩
      rw [List.forall₂_nil_left_iff.1 hresults]
      rfl
  | cons chunk chunks ih =>
    rw [← List.singleton_append, rows?_append hs hd, List.singleton_append]
    constructor
    · intro h
      cases hfirst : s.rows? (some d) [chunk] with
      | none => simp [hfirst] at h
      | some result =>
        cases hrest : s.rows? (some d) chunks with
        | none => simp [hrest] at h
        | some rest =>
          obtain ⟨results, hresults, hrows, hskipped⟩ := ih.1 hrest
          rw [hfirst, hrest, bothRows_some, Option.some.injEq, Prod.mk.injEq] at h
          refine ⟨result :: results, .cons hfirst hresults, ?_, ?_⟩
          · rw [← h.1, hrows, List.flatMap_cons]
          · rw [← h.2, hskipped, List.map_cons, List.sum_cons]
    · rintro ⟨results, hresults, rfl, rfl⟩
      obtain ⟨result, results, hfirst, hrest, rfl⟩ := List.forall₂_cons_left_iff.1 hresults
      rw [hfirst, ih.2 ⟨results, hrest, rfl, rfl⟩, bothRows_some, List.flatMap_cons, List.map_cons,
        List.sum_cons]

/-- Chunks have rows if each of them has. -/
theorem isSome_rows?_iff {s : Schema} (hs : s.Separated) (hd : d ≠ []) {chunks : List Bytes} :
    (s.rows? (some d) chunks).isSome ↔ ∀ chunk ∈ chunks, (s.rows? (some d) [chunk]).isSome := by
  induction chunks with
  | nil => simp [rows?_nil hs hd]
  | cons chunk chunks ih =>
    rw [← List.singleton_append, rows?_append hs hd, List.singleton_append, List.forall_mem_cons,
      ← ih]
    cases s.rows? (some d) [chunk] <;> cases s.rows? (some d) chunks <;> simp

end Schema

end RecordStore
