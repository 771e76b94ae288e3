import RecordStore.Archive
import RecordStore.Proofs.BuildRows
import RecordStore.Proofs.ValueForms

/-!
# What is built can be opened

A build that succeeds has written a header and the sections of the rows of its input. The file is
opened again with its schema, and every row is read back as a value and as text.

## Main definitions

* `Schema.file` — the bytes of a container file with given rows.
* `Schema.written` — what a build writes and says, by the rows of its input.

## Main statements

* `build_eq_written` — a build writes the file of the rows of its input, or stops where it has none.
* `Schema.addressed_of_parse`, `Schema.storable_iff` — which numbers in sections fit.
* `Archive.open_file`, `Archive.read_file` — a file is opened, and its rows are read.
-/

namespace RecordStore

def Schema.file (s : Schema) (rows : List Value) : Bytes :=
  Header.write s.source ++ s.sections rows

/-- What a build writes and says, by the rows of its input. -/
def Schema.written (s : Schema) :
    Except Halt (List Value × Nat) → Bytes × Except BuildError BuildSummary
  | .ok (rows, skipped) => (s.file rows, .ok ⟨rows.length, skipped, (s.file rows).length⟩)
  | .error halt => (Header.write s.source ++ halt.output, .error halt.error)

/-! ## Builds -/

/-- A build writes the file of the rows of its input, or stops where it has none, if its areas can
be opened. -/
theorem Opener.build_eq_written {opener : Opener} (hl : opener.Local) {schema : Schema}
    (hr : opener.Ready 0 schema.size .empty) (hn : schema.NumberedFrom 0) (outer : Option Bytes)
    (input : Bytes) :
    opener.build schema outer (.ok input) =
      schema.written (schema.outcome outer (Records.splitOptional outer input)) := by
  have hgives := gives_buildNode hl hn outer input
    ⟨(Header.write schema.source).toArray, 0, .empty⟩ (by rwa [Nat.zero_add])
  have hrun : (do
      Build.emit (Header.write schema.source)
      opener.buildNode schema outer input : Build Nat) ⟨#[], 0, .empty⟩ =
        opener.buildNode schema outer input
          ⟨(Header.write schema.source).toArray, 0, .empty⟩ := by
    rw [Build.bind_apply, Build.emit_apply]
    simp
  cases h : schema.outcome outer (Records.splitOptional outer input) with
  | ok rows =>
    rw [h] at hgives
    obtain ⟨d, hgives, -⟩ := hgives
    simp [build, hrun, hgives, Schema.written, Schema.file]
  | error halt =>
    rw [h] at hgives
    obtain ⟨skipped, d, hgives⟩ := hgives
    simp [build, hrun, hgives, Schema.written]

/-- A build whose input cannot be read writes the header. -/
theorem Opener.build_error (opener : Opener) (schema : Schema) (outer : Option Bytes)
    (cause : SystemError) :
    opener.build schema outer (.error cause) =
      (Header.write schema.source, .error (.staged (.system cause))) := by
  simp [Opener.build, Build.bind_apply, Build.emit_apply, Build.throw_apply]

section

variable {staging : Staging} {schema : Schema} {outer : Option Bytes} {input : Bytes}

/-- A build in memory or on disk writes the file of the rows of its input, or stops where it has
none. -/
theorem build_eq_written (hs : ∀ parent cause, staging ≠ .disk parent (some cause))
    (hn : schema.NumberedFrom 0) :
    build staging schema outer (.ok input) =
      schema.written (schema.outcome outer (Records.splitOptional outer input)) := by
  rw [build_eq hs]
  exact Opener.build_eq_written (Opener.local_openArea _) (Opener.ready_openArea _ _ _ _) hn
    outer input

theorem build_of_rows? (hs : ∀ parent cause, staging ≠ .disk parent (some cause))
    (hn : schema.NumberedFrom 0) {rows : List Value} {skipped : Nat}
    (h : schema.rows? outer (Records.splitOptional outer input) = some (rows, skipped)) :
    build staging schema outer (.ok input) =
      (schema.file rows, .ok ⟨rows.length, skipped, (schema.file rows).length⟩) := by
  rw [build_eq_written hs hn, toOption_eq_some.1 h]
  rfl

/-- A build of an input without rows fails where a child does not give a row for each text. -/
theorem build_of_rows?_eq_none (hs : ∀ parent cause, staging ≠ .disk parent (some cause))
    (hn : schema.NumberedFrom 0)
    (h : schema.rows? outer (Records.splitOptional outer input) = none) :
    ∃ output ordinal expected actual, build staging schema outer (.ok input) =
      (output, .error (.instanceMismatch ordinal expected actual)) := by
  rw [build_eq_written hs hn]
  unfold Schema.rows? at h
  cases hout : schema.outcome outer (Records.splitOptional outer input) with
  | ok rows => simp [hout, Except.toOption] at h
  | error halt => exact ⟨_, halt.ordinal, halt.expected, halt.actual, rfl⟩

end

/-- What a build that succeeds has read and written. -/
theorem rows?_of_build {staging : Staging} {schema : Schema} {outer : Option Bytes}
    {input : Except SystemError Bytes} {output : Bytes} {summary : BuildSummary}
    (hn : schema.NumberedFrom 0)
    (h : build staging schema outer input = (output, .ok summary)) :
    ∃ text rows skipped, input = .ok text ∧
      schema.rows? outer (Records.splitOptional outer text) = some (rows, skipped) ∧
        output = schema.file rows ∧
        summary = ⟨rows.length, skipped, (schema.file rows).length⟩ := by
  have hs : ∀ parent cause, staging ≠ .disk parent (some cause) := by
    rintro parent cause rfl
    simp [build] at h
  cases input with
  | error cause =>
    rw [build_eq hs, Opener.build_error, Prod.mk.injEq] at h
    cases h.2
  | ok text =>
    cases hrows : schema.rows? outer (Records.splitOptional outer text) with
    | none =>
      obtain ⟨output', ordinal, expected, actual, hb⟩ := build_of_rows?_eq_none hs hn hrows
      simp [hb] at h
    | some result =>
      obtain ⟨rows, skipped⟩ := result
      rw [build_of_rows? hs hn hrows, Prod.mk.injEq, Except.ok.injEq] at h
      exact ⟨text, rows, skipped, rfl, hrows, h.1.symm, h.2.symm⟩

theorem bytesWritten_of_build {staging : Staging} {schema : Schema} {outer : Option Bytes}
    {input : Except SystemError Bytes} {output : Bytes} {summary : BuildSummary}
    (hn : schema.NumberedFrom 0)
    (h : build staging schema outer input = (output, .ok summary)) :
    summary.bytesWritten = output.length := by
  obtain ⟨text, rows, skipped, -, -, rfl, rfl⟩ := rows?_of_build hn h
  rfl

/-- A build in memory succeeds if its text has rows. -/
theorem exists_build_iff {schema : Schema} (hn : schema.NumberedFrom 0) {outer : Option Bytes}
    {input : Bytes} :
    (∃ output summary, build .memory schema outer (.ok input) = (output, .ok summary)) ↔
      (schema.rows? outer (Records.splitOptional outer input)).isSome := by
  constructor
  · rintro ⟨output, summary, h⟩
    obtain ⟨text, rows, skipped, htext, hrows, -⟩ := rows?_of_build hn h
    rw [Except.ok.inj htext, hrows]
    rfl
  · intro h
    obtain ⟨⟨rows, skipped⟩, hrows⟩ := Option.isSome_iff_exists.1 h
    exact ⟨_, _, build_of_rows? (by simp) hn hrows⟩

/-! ## Headers -/

theorem Take.get_apply (c : Cursor) : (get : Take Cursor) c = .ok (c, c) := rfl

/-- The format in a header is read back. -/
theorem Header.read_write {format : String} (hf : (Bytes.ofText format).length < 2 ^ 32)
    (back : Bytes) :
    Header.read (Header.write format ++ back) = .ok (format, (Header.write format).length) := by
  have hbytes : Header.write format ++ back =
      magic ++ (Bytes.ofNat 4 version ++ (Bytes.ofNat 4 0 ++
        (Bytes.ofNat 4 (Bytes.ofText format).length ++ (Bytes.ofText format ++ back)))) := by
    simp [write]
  have htake : (Header.write format ++ back).take magic.length = magic := by
    rw [hbytes, List.take_left]
  have hstart : (Cursor.start (Header.write format ++ back)).advance magic.length =
      ⟨magic.length, Bytes.ofNat 4 version ++ (Bytes.ofNat 4 0 ++
        (Bytes.ofNat 4 (Bytes.ofText format).length ++ (Bytes.ofText format ++ back)))⟩ := by
    rw [Cursor.advance, Cursor.start, htake, hbytes, List.drop_left, Nat.zero_add]
  unfold Header.read
  simp only [htake, hstart, ne_eq, not_true_eq_false, if_false, Take.bind_apply]
  rw [@Take.Reads.number 4 version (by decide)]
  simp only [not_true_eq_false, if_false, Take.bind_apply]
  rw [@Take.Reads.number 4 0 (by decide)]
  simp only
  rw [@Take.Reads.number 4 _ hf]
  simp only [Take.get_apply]
  rw [Take.Reads.bytes rfl]
  simp only [Utf8.read?_ofText, Take.bind_apply, Take.get_apply, Take.pure_apply, ok_bind,
    pure_eq_ok, Bytes.length_ofNat]
  simp only [write, List.length_append, Bytes.length_ofNat]

/-! ## Numbers that fit -/

namespace Schema

theorem addressed_of_numberedFrom {s : Schema} {n : Nat} (hn : s.NumberedFrom n)
    (hsize : n + s.size ≤ 2 ^ 32) (hs : s.Separated) (ha : s.ArgsFit) : s.Addressed := by
  have hnone : (Bytes.ofText (",".intercalate [])).length < 2 ^ 16 := by decide
  induction s generalizing n with
  | flat node =>
    simp only [NumberedFrom, size, Separated] at hn hsize hs
    exact ⟨⟨by omega, hnone⟩, hs⟩
  | sequence label element sep args ih =>
    obtain ⟨rfl, hn⟩ := hn
    obtain ⟨hargs, ha⟩ := List.forall_mem_cons.1 ha
    simp only [size] at hsize
    exact ⟨⟨by omega, Nat.lt_succ_of_le hargs⟩, ih hn (by omega) hs.2 ha⟩
  | set label keys =>
    obtain ⟨rfl, hn⟩ := hn
    obtain ⟨hargs, -⟩ := List.forall_mem_cons.1 ha
    simp only [size] at hsize
    exact ⟨⟨by omega, Nat.lt_succ_of_le hargs⟩, hs.2⟩
  | map label keys value sep ih =>
    obtain ⟨rfl, -, hn⟩ := hn
    obtain ⟨-, hcount, -, hs⟩ := hs
    obtain ⟨hargs, ha⟩ := List.forall_mem_cons.1 ha
    simp only [size] at hsize
    exact ⟨⟨by omega, Nat.lt_succ_of_le hargs⟩, hcount,
      ih hn (by omega) hs (List.forall_mem_cons.1 ha).2⟩
  | pair label first second sep ih₁ ih₂ =>
    obtain ⟨rfl, hn₁, hn₂⟩ := hn
    obtain ⟨-, hs₁, hs₂⟩ := hs
    obtain ⟨ha₁, ha₂⟩ := List.forall_mem_append.1 (List.forall_mem_cons.1 ha).2
    simp only [size] at hsize
    exact ⟨⟨by omega, hnone⟩, ih₁ hn₁ (by omega) hs₁ ha₁, ih₂ hn₂ (by omega) hs₂ ha₂⟩

/-- The numbers in the sections of a schema fit if the ordinals, arguments and widths do. -/
theorem storable_iff {s : Schema} : s.Storable ↔ s.Addressed ∧ s.WidthsFit := by
  induction s with
  | flat node =>
    simp only [Storable, Addressed, WidthsFit]
    tauto
  | sequence label element sep args ih => simp only [Storable, Addressed, WidthsFit, ih, and_assoc]
  | set label keys => simp only [Storable, Addressed, WidthsFit, and_true]
  | map label keys value sep ih => simp only [Storable, Addressed, WidthsFit, ih, and_assoc]
  | pair label first second sep ih₁ ih₂ =>
    simp only [Storable, Addressed, WidthsFit, ih₁, ih₂]
    tauto

theorem Addressed.storable {s : Schema} (h : s.Addressed) (hw : s.WidthsFit) : s.Storable :=
  storable_iff.2 ⟨h, hw⟩

/-- The ordinals and arguments in the sections of a parsed schema fit. -/
theorem addressed_of_parse {format : String} {s : Schema} (h : parse format = .ok s)
    (hf : (Bytes.ofText format).length < 2 ^ 32) (ha : s.ArgsFit) : s.Addressed := by
  have := size_le_of_parse h
  exact addressed_of_numberedFrom (numberedFrom_of_parse h) (by omega) (separated_of_parse h) ha

theorem exists_encode {s : Schema} {value : Value} (h : s.Holds value) :
    ∃ text, encode s value = .ok text :=
  h.hasForm.exists_encode

end Schema

/-! ## Archives -/

section

variable {s : Schema} {rows : List Value}

theorem embeddedFormat_file (hf : (Bytes.ofText s.source).length < 2 ^ 32) :
    embeddedFormat (s.file rows) = .ok s.source := by
  rw [embeddedFormat, Schema.file, Header.read_write hf]
  rfl

/-- The file of rows is opened as their container. -/
theorem Archive.open_file (hs : s.Storable) (hf : (Bytes.ofText s.source).length < 2 ^ 32)
    (hr : ∀ row ∈ rows, s.Holds row) (hl : (s.file rows).length < wordLimit) :
    Archive.open s (s.file rows) = .ok ⟨s, s.container rows⟩ := by
  have hsections : (s.sections rows).length < wordLimit := by
    rw [Schema.file, List.length_append] at hl
    omega
  have hnode := (Schema.reads_sections hs hr hsections).start
  have hopen : Container.open s (s.sections rows) = .ok (s.container rows) := by
    rw [Container.open, hnode]
    rfl
  rw [Archive.open, Schema.file, Header.read_write hf, ok_bind]
  simp only [ne_eq, not_true_eq_false, if_false, List.drop_left, hopen]
  rfl

theorem Archive.read_file (hs : s.Storable) (hr : ∀ row ∈ rows, s.Holds row)
    (hl : (s.file rows).length < wordLimit) {i : Nat} (hi : i < rows.length) :
    Archive.read ⟨s, s.container rows⟩ i = .ok rows[i] := by
  have hsections : (s.sections rows).length < wordLimit := by
    rw [Schema.file, List.length_append] at hl
    omega
  have hcheck : Archive.checkInstance ⟨s, s.container rows⟩ i = .ok () := by
    rw [Archive.checkInstance, Archive.instances, Schema.instances_container, if_pos hi]
  rw [Archive.read, hcheck, ok_bind]
  exact Schema.read_container hs hr hsections hi

end

end RecordStore
