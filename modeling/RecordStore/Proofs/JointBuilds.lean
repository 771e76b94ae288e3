import RecordStore.Proofs.JointRows
import RecordStore.Proofs.OpenedFiles
import RecordStore.Proofs.SingleDelimiters

/-!
# Instances of a build do not interfere

An input of several chunks is built if each chunk is built alone. If the file opens, it holds the
values of the single files in order.

## Main definitions

* `Archive.readAll` — the values of all instances of a file.

## Main statements

* `Archive.readAll_file` — the values of the file of rows are the rows.
* `joint_build_eq_single_builds` — a joint build gives what the single builds give.
-/

namespace RecordStore

def Archive.readAll (schema : Schema) (bytes : Bytes) : Except ReadError (List Value) := do
  let archive ← Archive.open schema bytes
  (List.range archive.instances).mapM archive.read

/-- The values of the file of rows are the rows. -/
theorem Archive.readAll_file {s : Schema} {rows : List Value} (hs : s.Storable)
    (hf : (Bytes.ofText s.source).length < 2 ^ 32) (hr : ∀ row ∈ rows, s.Holds row)
    (hl : (s.file rows).length < wordLimit) : Archive.readAll s (s.file rows) = .ok rows := by
  rw [readAll, Archive.open_file hs hf hr hl, ok_bind]
  have hcount : Archive.instances ⟨s, s.container rows⟩ = rows.length :=
    Schema.instances_container s rows
  rw [hcount, mapM_eq_ok_iff, List.forall₂_iff_get]
  refine ⟨List.length_range, ?_⟩
  intro i _ hi
  simpa using Archive.read_file hs hr hl hi

theorem splitOptional_append {d : Bytes} (hd : d ≠ []) {chunk : Bytes}
    (hc : Records.delimitsCleanly chunk d = true) :
    Records.splitOptional (some d) (chunk ++ d) = [chunk] := by
  have := @Records.split_staged d hd [chunk] (by simpa using hc)
  rwa [staged, List.flatMap_singleton] at this

/-- What single builds give, by the rows of their chunks. -/
theorem single_builds_eq {schema : Schema} (hn : schema.NumberedFrom 0) {d : Bytes} (hd : d ≠ [])
    {chunks : List Bytes} (hc : ∀ chunk ∈ chunks, Records.delimitsCleanly chunk d = true)
    {singles : List (Bytes × BuildSummary)}
    (hsingles : List.Forall₂ (fun chunk single =>
      build .memory schema (some d) (.ok (chunk ++ d)) = (single.1, .ok single.2)) chunks singles)
    {results : List (List Value × Nat)}
    (hresults : List.Forall₂ (fun chunk result =>
      schema.rows? (some d) [chunk] = some result) chunks results) :
    singles = results.map fun result =>
      (schema.file result.1, ⟨result.1.length, result.2, (schema.file result.1).length⟩) := by
  induction hresults generalizing singles with
  | nil => exact List.forall₂_nil_left_iff.1 hsingles
  | @cons chunk result chunks results hrows hresults ih =>
    obtain ⟨single, singles, hb, hrest, rfl⟩ := List.forall₂_cons_left_iff.1 hsingles
    obtain ⟨hclean, hc⟩ := List.forall_mem_cons.1 hc
    rw [← splitOptional_append hd hclean] at hrows
    rw [build_of_rows? (by simp) hn hrows, Prod.mk.injEq, Except.ok.injEq] at hb
    rw [ih hc hrest, List.map_cons]
    exact congrArg (· :: _) (Prod.ext hb.1.symm hb.2.symm)

/-- A joint build succeeds if the build of each chunk alone does, and it skips what they skip. The
joint file opens if and only if the single files do, and then it holds their values, one file after
the other. -/
theorem joint_build_eq_single_builds {format : String} {schema : Schema}
    (hp : parse format = .ok schema) (hf : (Bytes.ofText format).length < 2 ^ 32)
    (ha : schema.ArgsFit) {d : Bytes} (hd : d ≠ []) {chunks : List Bytes}
    (hc : ∀ chunk ∈ chunks, Records.delimitsCleanly chunk d = true) :
    ((∃ output summary,
        build .memory schema (some d) (.ok (staged d chunks)) = (output, .ok summary)) ↔
      ∀ chunk ∈ chunks, ∃ output summary,
        build .memory schema (some d) (.ok (chunk ++ d)) = (output, .ok summary)) ∧
    ∀ output summary (singles : List (Bytes × BuildSummary)),
      build .memory schema (some d) (.ok (staged d chunks)) = (output, .ok summary) →
      List.Forall₂ (fun chunk single =>
        build .memory schema (some d) (.ok (chunk ++ d)) = (single.1, .ok single.2))
          chunks singles →
      summary.skipped = (singles.map (·.2.skipped)).sum ∧
        (output.length < wordLimit → (∀ single ∈ singles, single.1.length < wordLimit) →
          (∀ bytes ∈ output :: singles.map (·.1),
            Archive.Opens schema bytes ↔ schema.WidthsFit) ∧
          (Archive.Opens schema output →
            ∃ values, singles.mapM (fun single => Archive.readAll schema single.1) = .ok values ∧
              Archive.readAll schema output = .ok values.flatten)) := by
  have haddressed := Schema.addressed_of_parse hp hf ha
  have hn := numberedFrom_of_parse hp
  have hseparated := separated_of_parse hp
  have hsource : (Bytes.ofText schema.source).length < 2 ^ 32 := by rwa [parse_source hp]
  have hsplit : Records.splitOptional (some d) (staged d chunks) = chunks :=
    Records.split_staged hd hc
  have hsingle : ∀ chunk ∈ chunks, Records.splitOptional (some d) (chunk ++ d) = [chunk] :=
    fun chunk hm => splitOptional_append hd (hc chunk hm)
  refine ⟨?_, fun output summary singles hb hsingles => ?_⟩
  · rw [exists_build_iff hn, hsplit, Schema.isSome_rows?_iff hseparated hd]
    exact forall₂_congr fun chunk hm => by rw [exists_build_iff hn, hsingle chunk hm]
  · obtain ⟨text, rows, skipped, htext, hrows, rfl, rfl⟩ := rows?_of_build hn hb
    obtain rfl := Except.ok.inj htext
    have hr := Schema.holds_of_rows? hrows
    rw [hsplit, Schema.rows?_eq_some_iff hseparated hd] at hrows
    obtain ⟨results, hresults, rfl, rfl⟩ := hrows
    obtain rfl := single_builds_eq hn hd hc hsingles hresults
    have hholds : ∀ result ∈ results, ∀ row ∈ result.1, schema.Holds row :=
      fun result hm row hrow => hr row (List.mem_flatMap_of_mem hm hrow)
    refine ⟨by simp [Function.comp_def], fun hlength hlengths => ?_⟩
    have hjoint := Archive.opens_file_iff haddressed hsource hr hlength
    have hshort : ∀ result ∈ results, (schema.file result.1).length < wordLimit :=
      fun result hm => hlengths _ (List.mem_map_of_mem hm)
    refine ⟨?_, fun hopens => ⟨results.map (·.1), ?_, ?_⟩⟩
    · simp only [List.map_map, List.forall_mem_cons, List.forall_mem_map, Function.comp_apply]
      exact ⟨hjoint, fun result hm =>
        Archive.opens_file_iff haddressed hsource (hholds result hm) (hshort result hm)⟩
    · have hs := haddressed.storable (hjoint.1 hopens)
      rw [List.mapM_map]
      exact mapM_eq_ok fun result hm =>
        Archive.readAll_file hs hsource (hholds result hm) (hshort result hm)
    · rw [← List.flatMap_def]
      exact Archive.readAll_file (haddressed.storable (hjoint.1 hopens)) hsource hr hlength

theorem build_single_samples :
    (build .memory nestedSample (some [0x0a]) (.ok (Bytes.ofText "5,x,6,;" ++ [0x0a]))).2 =
        .ok ⟨1, 0, 142⟩ ∧
      (build .memory nestedSample (some [0x0a]) (.ok (Bytes.ofText "7,;;" ++ [0x0a]))).2 =
        .ok ⟨1, 0, 146⟩ :=
  ⟨by decide +kernel, by decide +kernel⟩

theorem build_joint_sample : (build .memory nestedSample (some [0x0a])
    (.ok (staged [0x0a] [Bytes.ofText "5,x,6,;", Bytes.ofText "7,;;"]))).2 =
      .ok ⟨2, 0, 170⟩ := by decide +kernel

theorem joint_sample_build :
    ∃ output summary values,
      build .memory nestedSample (some [0x0a])
          (.ok (staged [0x0a] [Bytes.ofText "5,x,6,;", Bytes.ofText "7,;;"])) =
        (output, .ok summary) ∧
      Archive.readAll nestedSample output = .ok values := by
  have hn := numberedFrom_of_parse parse_nestedSample
  have hformat := length_source_nestedSample
  have hclean : ∀ chunk ∈ [Bytes.ofText "5,x,6,;", Bytes.ofText "7,;;"],
      Records.delimitsCleanly chunk [0x0a] = true := by
    simp only [List.forall_mem_cons]
    exact ⟨Records.delimitsCleanly_singleton (by decide),
      Records.delimitsCleanly_singleton (by decide), by simp⟩
  have hjoint := eq_of_snd_eq build_joint_sample
  have hfirst := eq_of_snd_eq build_single_samples.1
  have hsecond := eq_of_snd_eq build_single_samples.2
  obtain ⟨-, h⟩ := joint_build_eq_single_builds parse_nestedSample (by omega)
    argsFit_nestedSample (List.cons_ne_nil _ _) hclean
  obtain ⟨-, hread⟩ := h _ _ [(_, ⟨1, 0, 142⟩), (_, ⟨1, 0, 146⟩)] hjoint
    (.cons hfirst (.cons hsecond .nil))
  have hjoint' := bytesWritten_of_build hn hjoint
  have hfirst' := bytesWritten_of_build hn hfirst
  have hsecond' := bytesWritten_of_build hn hsecond
  obtain ⟨hopens, hread⟩ := hread (by rw [← hjoint']; decide) (by
    simp only [List.forall_mem_cons]
    rw [← hfirst', ← hsecond']
    exact ⟨by decide, by decide, by simp⟩)
  obtain ⟨values, -, hvalues⟩ := hread ((hopens _ List.mem_cons_self).2 widthsFit_nestedSample)
  exact ⟨_, _, _, hjoint, hvalues⟩

end RecordStore
