import RecordStore.Proofs.BuiltArchives
import RecordStore.Proofs.LegibleRows
import RecordStore.Proofs.TextRoundTrips

/-!
# Builds of any input

The only way in which a build in memory can fail is that a child does not give one instance for
each text that is staged for it. A legible schema rules this out: the text of each record that can
be decoded is decoded again, so malformed records are skipped and all others are built.

## Main definitions

* `Schema.BuildsEach` — whether a build of a node gives one instance for each record that can be
  decoded.

## Main statements

* `Schema.buildsEach_of_marked` — a build of a node of a legible schema.
* `legible_build_succeeds` — a build of any input.
-/

namespace RecordStore

namespace Schema

/-- Whether a build of a node gives one instance for each record that can be decoded, and skips the
others. -/
def BuildsEach (s : Schema) : Prop :=
  ∀ d, MarkOutside [d] s.separators → ∀ records : List Bytes, (∀ record ∈ records, d ∉ record) →
    ∀ p, ∃ p', buildNode false s (some [d]) (staged [d] records) p =
      .ok (s.accepted records).length p'

/-- The nodes of a schema are numbered, separated and delimited as the schema is. -/
theorem exists_numberedFrom_of_mem_nodes {Kind : Layout → Prop} {s child : Schema} {n : ℕ}
    (hn : s.NumberedFrom n) (hs : s.Separated) (hm : s.Marked Kind) (h : child ∈ s.nodes) :
    ∃ m, child.NumberedFrom m ∧ child.Separated ∧ child.Marked Kind := by
  induction s generalizing n with
  | flat node =>
    obtain rfl := List.mem_singleton.1 h
    exact ⟨n, hn, hs, hm⟩
  | sequence label element sep args ih =>
    rcases List.mem_cons.1 h with rfl | h
    · exact ⟨n, hn, hs, hm⟩
    · exact ih hn.2 hs.2 hm.2 h
  | set label keys =>
    rcases List.mem_cons.1 h with rfl | h
    · exact ⟨n, hn, hs, hm⟩
    · obtain rfl := List.mem_singleton.1 h
      exact ⟨_, hn.2, hs.2, hm.2⟩
  | map label keys value sep ih =>
    rcases List.mem_cons.1 h with rfl | h
    · exact ⟨n, hn, hs, hm⟩
    obtain ⟨-, hkeys, hn⟩ := hn
    obtain ⟨-, hhollow, -, hs⟩ := hs
    obtain ⟨⟨-, -, hkind⟩, -, hm⟩ := hm
    rcases List.mem_cons.1 h with rfl | h
    · exact ⟨_, hkeys, hhollow, hkind⟩
    · exact ih hn hs hm h
  | pair label first second sep ih₁ ih₂ =>
    rcases List.mem_cons.1 h with rfl | h
    · exact ⟨n, hn, hs, hm⟩
    rcases List.mem_append.1 h with h | h
    · exact ih₁ hn.2.1 hs.2.1 hm.2.1 h
    · exact ih₂ hn.2.2 hs.2.2 hm.2.2 h

/-- A build of a node whose records are delimited by a mark gives one instance for each record that
can be decoded. -/
theorem buildsEach_of_marked {s : Schema} {n : ℕ} (hn : s.NumberedFrom n) (hs : s.Separated)
    (hm : s.Marked Layout.Legible) : s.BuildsEach := by
  intro d hd records hfree p
  obtain ⟨rows, skipped, hrows, hagree⟩ := readsParts_of_marked hs hm hd records hfree
  have hsplit : Records.splitOptional (some [d]) (staged [d] records) = records :=
    Records.split_staged_singleton hfree
  have hgives := gives_buildNode false hn (some [d]) (staged [d] records) p
  rw [hsplit, toOption_eq_some.1 hrows] at hgives
  obtain ⟨directory, hbuild, -⟩ := hgives
  exact ⟨_, hagree.length_eq ▸ hbuild⟩

end Schema

/-- A build in memory fails only where a child does not give one instance for each staged text. If
the schema is legible it succeeds for any input: the file has the rows of what can be decoded, and
every node gives one instance for each record that can be decoded. -/
theorem legible_build_succeeds {format : String} {schema : Schema}
    (hp : parse format = .ok schema) (input : Bytes) :
    (∀ output cause, build .memory schema none (.ok input) = (output, .error cause) →
      ∃ ordinal expected actual, cause = .instanceMismatch ordinal expected actual) ∧
    (schema.Legible →
      (∃ rows skipped, build .memory schema none (.ok input) =
          (schema.file rows, .ok ⟨rows.length, skipped, (schema.file rows).length⟩) ∧
        (schema.isStreamed = false →
          List.Forall₂ Value.Agrees rows (schema.accepted [input]))) ∧
      ∀ child ∈ schema.nodes, child.BuildsEach) := by
  have hn := numberedFrom_of_parse hp
  have hs := separated_of_parse hp
  have hmemory : ∀ parent cause, Staging.memory ≠ .disk parent (some cause) := by simp
  constructor
  · intro output cause h
    cases hrows : schema.rows? none (Records.splitOptional none input) with
    | some result =>
      rw [build_of_rows? hmemory hn hrows] at h
      simp at h
    | none =>
      obtain ⟨_, ordinal, expected, actual, hbuild⟩ := build_of_rows?_eq_none hmemory hn hrows
      rw [hbuild, Prod.mk.injEq, Except.error.injEq] at h
      exact ⟨ordinal, expected, actual, h.2.symm⟩
  · intro hlegible
    have hm := Schema.marked_of_legible hs hlegible (collision?_of_parse hp)
    refine ⟨?_, ?_⟩
    · cases hstream : schema.isStreamed with
      | false =>
        obtain ⟨rows, skipped, hrows, hagree⟩ := Schema.readsAs_whole hs hm (.inl hstream)
        exact ⟨rows, skipped, build_of_rows? hmemory hn hrows, fun _ => hagree⟩
      | true =>
        -- a streamed node has rows whatever the input is
        obtain ⟨node, rfl⟩ : ∃ node, schema = .flat node := by
          cases schema <;> simp_all [Schema.isStreamed]
        exact ⟨_, _, build_of_rows? hmemory hn rfl, by simp⟩
    · intro child hchild
      obtain ⟨m, hn, hs, hm⟩ := Schema.exists_numberedFrom_of_mem_nodes hn hs hm hchild
      exact Schema.buildsEach_of_marked hn hs hm

/-- Lines that are no numbers are skipped. -/
theorem real_sample_succeeds :
    ∃ rows skipped, build .memory realSample none (.ok (Bytes.ofText "0.1,\nx\n-nan,\n")) =
        (realSample.file rows, .ok ⟨rows.length, skipped, (realSample.file rows).length⟩) ∧
      List.Forall₂ Value.Agrees rows
        (realSample.accepted [Bytes.ofText "0.1,\nx\n-nan,\n"]) := by
  obtain ⟨-, h⟩ := legible_build_succeeds
    (by decide +kernel : parse "V(d,)\\n" = .ok realSample) (Bytes.ofText "0.1,\nx\n-nan,\n")
  obtain ⟨⟨rows, skipped, hbuild, hagree⟩, -⟩ := h legible_realSample
  exact ⟨rows, skipped, hbuild, hagree rfl⟩

def joinedListSample : Schema :=
  .sequence ⟨0, "V(ll)\n"⟩ (.flat ⟨⟨1, "ll"⟩, .struct ⟨[], [⟨.i32, []⟩, ⟨.i32, []⟩]⟩⟩) [0x0a] []

/-- Numbers without a separator between them are staged as one, so the child has no instance for a
line that can be decoded. -/
theorem joined_sample_aborts :
    parse "V(ll)\n" = .ok joinedListSample ∧
      (build .memory joinedListSample none (.ok (Bytes.ofText "1 2\n"))).2 =
        .error (.instanceMismatch 1 1 0) :=
  ⟨by decide +kernel, by decide +kernel⟩

end RecordStore
