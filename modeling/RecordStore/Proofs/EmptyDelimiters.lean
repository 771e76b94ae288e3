import RecordStore.Proofs.BuiltArchives
import RecordStore.Proofs.LegibleRows
import RecordStore.Proofs.PortionedRecords
import RecordStore.Proofs.WholeChunks

/-!
# Builds behind an empty delimiter

An empty delimiter ends nothing, so the input is one chunk with it as without a delimiter. A pair
hands its delimiter on to its second side, and the text that it has staged there is one chunk again.
But a pair that stages nothing leaves its second side without a chunk where there is no delimiter,
and with an empty chunk behind an empty one, which has a row of its own or is counted.

## Main definitions

* `Schema.TakesWhole` — whether a chunk is staged at each pair that hands the delimiter on.

## Main statements

* `Schema.length_le_of_rows?_some` — a chunk behind a delimiter has a row or is counted.
* `Schema.outcome_empty` — an empty delimiter changes nothing for what is staged.
* `build_behind_empty_delimiter` — builds of any input.
-/

namespace RecordStore

theorem kept_add_missing {α : Type} (parts : List (Option α)) :
    (kept parts).length + missing parts = parts.length := by
  induction parts with
  | nil => rfl
  | cons part parts ih => cases part <;> simp [kept, missing] at ih ⊢ <;> omega

theorem restagePair?_empty (first second : Schema) (sep chunk : Bytes) :
    restagePair? first second sep (some []) chunk = restagePair? first second sep none chunk := rfl

namespace Schema

/-- Whether a chunk is staged at each pair that hands the delimiter on to its second side. A
primitive or a struct there has to be decoded from it. -/
def TakesWhole : Schema → Bytes → Prop
  | flat node, chunk => (flat node).isStreamed = true → ∃ value, node.decode chunk = .ok value
  | sequence .., _ | set .., _ | map .., _ => True
  | pair _ first second sep, chunk =>
    ∃ sides, restagePair? first second sep none chunk = some sides ∧ second.TakesWhole sides.2

/-! ## Chunks behind a delimiter -/

/-- A chunk behind a delimiter has a row or is counted. -/
theorem length_le_of_rows?_some {s : Schema} {d : Bytes} {chunks : List Bytes} {rows : List Value}
    {skipped : Nat} (h : s.rows? (some d) chunks = some (rows, skipped)) :
    chunks.length ≤ rows.length + skipped := by
  cases s with
  | flat node =>
    rw [rows?_of_flat, FlatNode.rows_eq, Option.some.injEq, Prod.mk.injEq] at h
    obtain ⟨rfl, rfl⟩ := h
    rw [List.length_map, kept_add_missing, FlatNode.decoded, List.length_map]
  | sequence label element sep args =>
    simp only [rows?_of_sequence, Option.bind_eq_some_iff, Prod.exists,
      Option.ite_none_right_eq_some, Option.some.injEq, Prod.mk.injEq] at h
    obtain ⟨items, below, -, -, rfl, rfl⟩ := h
    simp
  | set label keys =>
    rw [rows?_of_set, Option.some.injEq, Prod.mk.injEq] at h
    simp [← h.1]
  | map label keys value sep =>
    simp only [rows?_of_map, Option.bind_eq_some_iff, Prod.exists,
      Option.ite_none_right_eq_some, Option.some.injEq, Prod.mk.injEq] at h
    obtain ⟨items, below, -, -, rfl, rfl⟩ := h
    simp
  | pair label first second sep =>
    simp only [rows?_of_pair, Option.bind_eq_some_iff, Prod.exists,
      Option.ite_none_right_eq_some, Option.some.injEq, Prod.mk.injEq] at h
    obtain ⟨lefts, below, -, hleft, rights, below', -, hright, rfl, rfl⟩ := h
    have := kept_add_missing (chunks.map (restagePair? first second sep (some d)))
    rw [List.length_map] at this
    rw [List.length_zipWith]
    omega

/-- What is staged has the same rows behind an empty delimiter as without a delimiter. -/
theorem outcome_empty {s : Schema} (hs : s.Separated) {chunk : Bytes} (h : s.TakesWhole chunk) :
    s.outcome (some []) [chunk] = s.outcome none [chunk] := by
  induction s generalizing chunk with
  | flat node =>
    rw [outcome, outcome, FlatNode.rows_eq]
    by_cases hl : ∀ shape, node.layout ≠ .structs shape
    · obtain ⟨value, hvalue⟩ := h (isStreamed_flat hl)
      rw [rows_streamed hl, FlatNode.streamed_of_decode hl hs hvalue]
      simp [FlatNode.decoded, hvalue, kept, missing, Except.toOption]
    · obtain ⟨shape, hl⟩ := not_forall_not.1 hl
      rw [rows_structs hl]
  | sequence label element sep args => rw [outcome, outcome]
  | set label keys => rw [outcome, outcome]
  | map label keys value sep => rw [outcome, outcome]
  | pair label first second sep _ ih =>
    obtain ⟨sides, hsides, hsecond⟩ := h
    have hstaged : staged [] [sides.2] = sides.2 := by simp [staged]
    simp only [outcome, List.map_cons, List.map_nil, restagePair?_empty, hsides, kept,
      List.filterMap_cons, id, List.filterMap_nil, List.isEmpty_cons, Bool.and_false,
      Bool.false_eq_true, if_false, Option.getD_none, Option.getD_some, hstaged,
      Records.splitOptional, Records.split_without, ih hs.2.2 hsecond]

section

variable {label : Label} {first second : Schema} {sep chunk : Bytes} {rows : List Value}
  {skipped : Nat}

/-- Behind an empty delimiter the second side of a pair that is staged has one row for its text. -/
theorem exists_right_of_rows?_pair {sides : Bytes × Bytes}
    (h : restagePair? first second sep none chunk = some sides)
    (hrows : (pair label first second sep).rows? (some []) [chunk] = some (rows, skipped)) :
    ∃ row below, second.rows? (some []) [sides.2] = some ([row], below) := by
  have hsides : [chunk].map (restagePair? first second sep (some [])) = [some sides] :=
    congrArg ([·]) h
  have htexts : staged [] ([sides].map (·.2)) = sides.2 := by simp [staged]
  have hchunks : Records.splitOptional (some []) sides.2 = [sides.2] := Records.split_without _
  simp only [rows?_of_pair, Option.bind_eq_some_iff, Prod.exists, Option.ite_none_right_eq_some,
    Option.some.injEq, Prod.mk.injEq, hsides] at hrows
  obtain ⟨lefts, below, -, -, rights, below', hrights, hlength, -, -⟩ := hrows
  obtain ⟨row, rfl⟩ := List.length_eq_one_iff.1 hlength.symm
  exact ⟨row, below', by rwa [← hchunks, ← htexts]⟩

/-- Behind an empty delimiter a pair that is not staged is counted, and so is what is left for its
second side, which has no row. -/
theorem rows?_pair_of_unstaged (h : restagePair? first second sep none chunk = none)
    (hrows : (pair label first second sep).rows? (some []) [chunk] = some (rows, skipped)) :
    rows = [] ∧ 1 < skipped := by
  have hsides : [chunk].map (restagePair? first second sep (some [])) = [none] :=
    congrArg ([·]) h
  have hchunks : Records.splitOptional (some []) (staged [] []) = [[]] := Records.split_without []
  simp only [rows?_of_pair, Option.bind_eq_some_iff, Prod.exists, Option.ite_none_right_eq_some,
    Option.some.injEq, Prod.mk.injEq, hsides] at hrows
  obtain ⟨lefts, below, -, -, rights, below', hrights, hlength, rfl, rfl⟩ := hrows
  obtain rfl : rights = [] := List.length_eq_zero_iff.1 hlength.symm
  have hcounted := length_le_of_rows?_some (hchunks ▸ hrights)
  have hmissing : missing [(none : Option (Bytes × Bytes))] = 1 := rfl
  rw [List.length_singleton, List.length_nil] at hcounted
  exact ⟨List.zipWith_nil_right, by omega⟩

end

/-- What is not staged has no rows behind an empty delimiter. -/
theorem rows_eq_nil_of_not_takesWhole {s : Schema} {chunk : Bytes} (h : ¬s.TakesWhole chunk)
    {rows : List Value} {skipped : Nat} (hrows : s.rows? (some []) [chunk] = some (rows, skipped)) :
    rows = [] := by
  induction s generalizing chunk rows skipped with
  | flat node =>
    rw [rows?_of_flat, FlatNode.rows_eq, Option.some.injEq, Prod.mk.injEq] at hrows
    have hnone : (node.decode chunk).toOption = none := by
      by_contra hsome
      obtain ⟨value, hvalue⟩ := Option.ne_none_iff_exists'.1 hsome
      exact h fun _ => ⟨value, toOption_eq_some.1 hvalue⟩
    simp [← hrows.1, FlatNode.decoded, hnone, kept]
  | sequence | set | map => exact absurd trivial h
  | pair label first second sep _ ih =>
    cases hsides : restagePair? first second sep none chunk with
    | none => exact (rows?_pair_of_unstaged hsides hrows).1
    | some sides =>
      obtain ⟨row, below, hright⟩ := exists_right_of_rows?_pair hsides hrows
      have hnil := ih (fun hsecond => h ⟨sides, hsides, hsecond⟩) hright
      cases hnil

/-- What a pair of a legible schema stages can be decoded. -/
theorem exists_decode_of_restagePair? {label : Label} {first second : Schema} {sep chunk : Bytes}
    (hm : (pair label first second sep).Marked Layout.Legible) {sides : Bytes × Bytes}
    (h : restagePair? first second sep none chunk = some sides) :
    ∃ value, decode (pair label first second sep) chunk = .ok value := by
  rcases @restagePair?_cases label first second sep chunk none hm.1 hm.2.1 hm.2.2 nofun with
    ⟨a, b, left, right, -, hdecode, -⟩ | ⟨hnone, -⟩
  · exact ⟨_, hdecode⟩
  · rw [h] at hnone
    cases hnone

/-- A chunk that a legible schema decodes is staged at each pair. -/
theorem takesWhole_of_decode {s : Schema} (hm : s.Marked Layout.Legible) {chunk : Bytes}
    {value : Value} (h : decode s chunk = .ok value) : s.TakesWhole chunk := by
  induction s generalizing chunk value with
  | flat node =>
    obtain ⟨value, hvalue, -⟩ := map_eq_ok.1 h
    exact fun _ => ⟨value, hvalue⟩
  | sequence | set | map => exact trivial
  | pair label first second sep _ ih =>
    obtain ⟨hsep, hm₁, hm₂⟩ := hm
    rcases @restagePair?_cases label first second sep chunk none hsep hm₁ hm₂ nofun with
      ⟨a, b, left, right, hsides, -, -, -, hright, -⟩ | ⟨-, hnone⟩
    · obtain ⟨again, hagain⟩ := hright.readable
      exact ⟨(a, b), hsides, ih hm₂ hagain⟩
    · rw [h] at hnone
      cases hnone

end Schema

/-! ## Builds -/

section

variable {label : Label} {first second : Schema} {sep input : Bytes}

/-- Without a delimiter an input that the root does not stage is skipped, and the build is done. -/
theorem build_of_unstaged (hn : (Schema.pair label first second sep).NumberedFrom 0)
    (hs : (Schema.pair label first second sep).Separated)
    (h : restagePair? first second sep none input = none) :
    ∃ output size, build .memory (.pair label first second sep) none (.ok input) =
      (output, .ok ⟨0, 1, size⟩) := by
  have hrows := @Schema.rows?_pair_of_none label first second sep input none hs.1 h hs.2.1 hs.2.2
    (by simp)
  rw [build_of_rows? (by simp) hn hrows, List.length_nil]
  exact ⟨_, _, rfl⟩

/-- If the build without a delimiter is done, the one behind an empty delimiter has another outcome
for what is not staged. -/
theorem takesWhole_of_build_eq (hn : (Schema.pair label first second sep).NumberedFrom 0)
    (hs : (Schema.pair label first second sep).Separated) {output : Bytes} {summary : BuildSummary}
    (hwithout : build .memory (.pair label first second sep) none (.ok input) =
      (output, .ok summary))
    (hbehind : build .memory (.pair label first second sep) (some []) (.ok input) =
      (output, .ok summary)) :
    (Schema.pair label first second sep).TakesWhole input := by
  obtain ⟨text, rows, skipped, htext, hrows, -, hsummary⟩ := rows?_of_build hn hbehind
  obtain rfl := Except.ok.inj htext
  rw [Records.splitOptional, Records.split_without] at hrows
  cases hsides : restagePair? first second sep none input with
  | none =>
    obtain ⟨-, hskipped⟩ := Schema.rows?_pair_of_unstaged hsides hrows
    obtain ⟨output', size, hskip⟩ := build_of_unstaged hn hs hsides
    have hone : summary = ⟨0, 1, size⟩ :=
      Except.ok.inj (congrArg Prod.snd (hwithout.symm.trans hskip))
    simp only [hsummary, BuildSummary.mk.injEq] at hone
    omega
  | some sides =>
    obtain ⟨row, below, hright⟩ := Schema.exists_right_of_rows?_pair hsides hrows
    by_contra hnot
    have hnil := Schema.rows_eq_nil_of_not_takesWhole
      (fun hsecond => hnot ⟨sides, hsides, hsecond⟩) hright
    cases hnil

end

/-- A build behind an empty delimiter is the build without a delimiter if the root is no pair, or if
the input is staged at each pair that hands the delimiter on. Of the builds without a delimiter that
are done, it is no other: an input that the root of a pair does not stage is skipped without a
delimiter, but fails or is counted twice behind an empty one. So for the pairs of a legible schema
the builds agree exactly on what can be decoded. -/
theorem build_behind_empty_delimiter {format : String} {schema : Schema}
    (hp : parse format = .ok schema) (input : Bytes) :
    ((∀ label first second sep, schema ≠ .pair label first second sep) →
      schema.isStreamed = false →
        build .memory schema (some []) (.ok input) = build .memory schema none (.ok input)) ∧
    (schema.TakesWhole input →
      build .memory schema (some []) (.ok input) = build .memory schema none (.ok input)) ∧
    ∀ label first second sep, schema = .pair label first second sep →
      (restagePair? first second sep none input = none →
        ∃ output size, build .memory schema none (.ok input) = (output, .ok ⟨0, 1, size⟩)) ∧
      (∀ output summary, build .memory schema none (.ok input) = (output, .ok summary) →
        (build .memory schema (some []) (.ok input) = build .memory schema none (.ok input) ↔
          schema.TakesWhole input)) ∧
      (schema.Legible →
        (build .memory schema (some []) (.ok input) = build .memory schema none (.ok input) ↔
          ∃ value, decode schema input = .ok value)) := by
  have hn := numberedFrom_of_parse hp
  have hs := separated_of_parse hp
  have hmemory : ∀ parent cause, Staging.memory ≠ .disk parent (some cause) := by simp
  have hwhole (h : schema.TakesWhole input) :
      build .memory schema (some []) (.ok input) = build .memory schema none (.ok input) := by
    rw [build_eq_written hmemory hn, build_eq_written hmemory hn, Records.splitOptional,
      Records.splitOptional, Records.split_without, Schema.outcome_empty hs h]
  refine ⟨fun hpair hstreamed => hwhole ?_, hwhole, ?_⟩
  · cases schema with
    | flat node => exact fun h => absurd h (by simp [hstreamed])
    | sequence | set | map => exact trivial
    | pair label first second sep => exact absurd rfl (hpair label first second sep)
  · rintro label first second sep rfl
    refine ⟨build_of_unstaged hn hs, fun output summary hb => ⟨fun heq => ?_, hwhole⟩, ?_⟩
    · exact takesWhole_of_build_eq hn hs hb (heq.trans hb)
    · intro hlegible
      have hm := Schema.marked_of_legible hs hlegible (collision?_of_parse hp)
      constructor
      · intro heq
        cases hsides : restagePair? first second sep none input with
        | none =>
          obtain ⟨output, size, hb⟩ := build_of_unstaged hn hs hsides
          obtain ⟨sides, hsome, -⟩ := takesWhole_of_build_eq hn hs hb (heq.trans hb)
          rw [hsides] at hsome
          cases hsome
        | some sides => exact Schema.exists_decode_of_restagePair? hm hsides
      · rintro ⟨value, hvalue⟩
        exact hwhole (Schema.takesWhole_of_decode hm hvalue)

def keyedBytesSample : Schema :=
  .pair ⟨0, "P(l),(c*)"⟩ (.flat ⟨⟨1, "l"⟩, .primitive .i32⟩)
    (.flat ⟨⟨2, "c*"⟩, .structs ⟨[], [⟨.char, []⟩]⟩⟩) [0x2c]

theorem parse_keyedBytesSample : parse "P(l),(c*)" = .ok keyedBytesSample := by decide +kernel

theorem restagePair?_keyedBytesSample :
    restagePair? (.flat ⟨⟨1, "l"⟩, .primitive .i32⟩)
        (.flat ⟨⟨2, "c*"⟩, .structs ⟨[], [⟨.char, []⟩]⟩⟩) [0x2c] none (Bytes.ofText " 5,xy") =
      some (Bytes.ofText "5", Bytes.ofText "xy") ∧
    restagePair? (.flat ⟨⟨1, "l"⟩, .primitive .i32⟩)
        (.flat ⟨⟨2, "c*"⟩, .structs ⟨[], [⟨.char, []⟩]⟩⟩) [0x2c] none (Bytes.ofText "x") = none :=
  ⟨by decide +kernel, by decide +kernel⟩

/-- The builds agree on a pair that is staged, and on no other. -/
theorem build_of_keyedBytesSample :
    parse "P(l),(c*)" = .ok keyedBytesSample ∧
      build .memory keyedBytesSample (some []) (.ok (Bytes.ofText " 5,xy")) =
        build .memory keyedBytesSample none (.ok (Bytes.ofText " 5,xy")) ∧
      build .memory keyedBytesSample (some []) (.ok (Bytes.ofText "x")) ≠
        build .memory keyedBytesSample none (.ok (Bytes.ofText "x")) := by
  obtain ⟨hstaged, hunstaged⟩ := restagePair?_keyedBytesSample
  obtain ⟨-, hwhole, -⟩ :=
    build_behind_empty_delimiter parse_keyedBytesSample (Bytes.ofText " 5,xy")
  obtain ⟨-, -, hpair⟩ := build_behind_empty_delimiter parse_keyedBytesSample (Bytes.ofText "x")
  obtain ⟨hskip, hiff, -⟩ := hpair _ _ _ _ rfl
  obtain ⟨output, size, hb⟩ := hskip hunstaged
  refine ⟨parse_keyedBytesSample, hwhole ⟨_, hstaged, nofun⟩, fun heq => ?_⟩
  obtain ⟨sides, hsides, -⟩ := (hiff _ _ hb).1 heq
  rw [hunstaged] at hsides
  cases hsides

/-- An input that is no pair is skipped without a delimiter. Behind an empty one, the byte string of
the second side reads an instance from nothing. -/
theorem unstaged_sample_fails :
    parse "P(l),(c*)" = .ok keyedBytesSample ∧
      (build .memory keyedBytesSample none (.ok (Bytes.ofText "x"))).2 = .ok ⟨0, 1, 114⟩ ∧
      (build .memory keyedBytesSample (some []) (.ok (Bytes.ofText "x"))).2 =
        .error (.instanceMismatch 2 0 1) :=
  ⟨parse_keyedBytesSample, by decide +kernel, by decide +kernel⟩

end RecordStore
