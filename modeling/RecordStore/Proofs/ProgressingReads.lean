import RecordStore.Proofs.BuildRows
import RecordStore.Proofs.KeyForms
import RecordStore.Proofs.LegibleRows

/-!
# Reading makes progress

Whatever is read at a cursor, the cursor goes on in its text and stays in it, also where reading
fails. A scalar takes at least a byte and a struct a byte for each field, though separators may be
met without being there. So a loop that reads values in a row ends on every text, and the text is as
long as its values have fields, or longer.

## Main definitions

* `Cursor.Reaches` — a cursor that is reached by taking bytes off the text.
* `Scan.Takes` — a reading that takes bytes off the text, or fails with a fault of the text.
* `Scan.Repeats` — a loop that reads values in a row.
* `Cursor.within`, `Scan.Advances` — cursors by their position in a buffer, and readings that go on
  in the buffer.

## Main statements

* `takes_decodeScalar`, `Shape.takes_decode` — what a scalar and a struct take.
* `Scan.exists_repeats`, `Scan.Repeats.reaches` — a loop ends, and what it has taken then.
* `Shape.decodeRun_of_repeats`, `FlatNode.streamed_of_repeats` — the loops of runs and of streams.
* `reading_advances` — progress and end of all readings of a schema.
-/

namespace RecordStore

/-! ## Cursors -/

namespace Cursor

/-- Whether a cursor is reached from another one by taking bytes off the text, at least `n`. -/
def Reaches (n : ℕ) (c c' : Cursor) : Prop :=
  ∃ taken : Bytes, n ≤ taken.length ∧ c.rest = taken ++ c'.rest ∧
    c'.position = c.position + taken.length

theorem Reaches.refl (c : Cursor) : c.Reaches 0 c := ⟨[], by simp⟩

theorem Reaches.trans {m n : ℕ} {c c' c'' : Cursor} (h : c.Reaches m c')
    (h' : c'.Reaches n c'') : c.Reaches (m + n) c'' := by
  obtain ⟨taken, hm, hrest, hposition⟩ := h
  obtain ⟨taken', hn, hrest', hposition'⟩ := h'
  refine ⟨taken ++ taken', ?_, by simp [hrest, hrest'], ?_⟩ <;> rw [List.length_append] <;> omega

theorem Reaches.mono {m n : ℕ} {c c' : Cursor} (h : c.Reaches n c') (hmn : m ≤ n) :
    c.Reaches m c' := by
  obtain ⟨taken, hn, htaken⟩ := h
  exact ⟨taken, hmn.trans hn, htaken⟩

theorem reaches_advance {c : Cursor} {k n : ℕ} (hk : k ≤ n) (hr : k ≤ c.rest.length) :
    c.Reaches k (c.advance n) := by
  refine ⟨c.rest.take n, ?_, (List.take_append_drop n c.rest).symm, rfl⟩
  rw [List.length_take]
  omega

theorem reaches_skipBlanks (c : Cursor) : c.Reaches 0 c.skipBlanks :=
  ⟨c.rest.takeWhile Bytes.isBlank, Nat.zero_le _, List.takeWhile_append_dropWhile.symm, rfl⟩

theorem reaches_finish (c : Cursor) : c.Reaches 0 c.finish :=
  ⟨c.rest, Nat.zero_le _, (List.append_nil _).symm, rfl⟩

end Cursor

/-! ## Readings -/

namespace Scan

variable {α β : Type} {m n k : ℕ} {c : Cursor}

/-- Whether a reading takes at least `n` bytes off the text at a cursor. It may also fail, there or
further on, but only with a fault of the text: it never blames the schema. -/
structure Takes (n : ℕ) (read : Scan α) (c : Cursor) : Prop where
  reaches : ∀ {a c'}, read c = .ok a c' → c.Reaches n c'
  reaches_of_error : ∀ {fault c'}, read c = .error fault c' → c.Reaches 0 c'
  ne_mismatch : ∀ {fault c'}, read c = .error fault c' → ∀ ordinal, fault ≠ .shapeMismatch ordinal

theorem takes_pure (a : α) : (pure a : Scan α).Takes 0 c where
  reaches h := by
    cases h
    exact .refl c
  reaches_of_error h := by cases h
  ne_mismatch h := by cases h

theorem takes_throw {fault : DecodeError} (h : ∀ ordinal, fault ≠ .shapeMismatch ordinal) :
    (throw fault : Scan α).Takes n c where
  reaches h := by cases h
  reaches_of_error h := by
    cases h
    exact .refl c
  ne_mismatch h := by
    cases h
    assumption

theorem takes_modify {move : Cursor → Cursor} (h : c.Reaches n (move c)) :
    (modify move : Scan Unit).Takes n c where
  reaches h := by
    cases h
    assumption
  reaches_of_error h := by cases h
  ne_mismatch h := by cases h

theorem Takes.bind {read : Scan α} {next : α → Scan β} (h : read.Takes m c)
    (hnext : ∀ {a c'}, read c = .ok a c' → (next a).Takes n c') (hk : k ≤ m + n := by omega) :
    (read >>= next).Takes k c := by
  cases hread : read c with
  | error fault c' =>
    have hbind : (read >>= next) c = .error fault c' := by rw [bind_apply, hread]
    refine ⟨fun h' => ?_, fun h' => ?_, fun h' => ?_⟩ <;> rw [hbind] at h' <;> cases h'
    · exact h.reaches_of_error hread
    · exact h.ne_mismatch hread
  | ok a c' =>
    have hbind : (read >>= next) c = next a c' := by rw [bind_apply, hread]
    have hreach := h.reaches hread
    refine ⟨fun h' => ?_, fun h' => ?_, fun h' => ?_⟩ <;> rw [hbind] at h'
    · exact (hreach.trans ((hnext hread).reaches h')).mono hk
    · exact (hreach.trans ((hnext hread).reaches_of_error h')).mono (Nat.zero_le _)
    · exact (hnext hread).ne_mismatch h'

/-- A reading that looks at the cursor first. -/
theorem takes_get_bind {next : Cursor → Scan α} (h : (next c).Takes n c) :
    ((get : Scan Cursor) >>= next).Takes n c := by
  have hbind : ((get : Scan Cursor) >>= next) c = next c c := by rw [bind_apply, get_apply]
  exact ⟨fun h' => h.reaches (hbind ▸ h'), fun h' => h.reaches_of_error (hbind ▸ h'),
    fun h' => h.ne_mismatch (hbind ▸ h')⟩

theorem Takes.map {read : Scan α} (h : read.Takes n c) (f : α → β) : (f <$> read).Takes n c := by
  rw [map_eq_pure_bind]
  exact h.bind fun _ => takes_pure _

end Scan

open Scan

/-! ## Scalars -/

section

variable {c : Cursor}

theorem takes_nextByte : nextByte.Takes 1 c := by
  refine takes_get_bind ?_
  split
  · exact takes_throw (by simp)
  · rename_i b rest hrest
    exact (takes_modify (Cursor.reaches_advance le_rfl (by simp [hrest]))).bind
      fun _ => takes_pure b

theorem takes_nextUnit : nextUnit.Takes 1 c := by
  refine takes_get_bind ?_
  split
  · rename_i u length hread
    obtain ⟨hpos, hle⟩ := Unit16.decode?_bounds hread
    exact (takes_modify (Cursor.reaches_advance hpos (by omega))).bind fun _ => takes_pure u
  · exact (takes_modify c.reaches_finish).bind fun _ => takes_throw (n := 1) (by simp)

theorem takes_readInteger {code : Char} {signed : Bool} {low high : Int} :
    (readInteger code signed low high).Takes 1 c := by
  refine (takes_modify c.reaches_skipBlanks).bind (n := 1) fun _ => takes_get_bind ?_
  dsimp only
  split
  · split <;> exact takes_throw (by simp)
  · rename_i token htoken
    obtain ⟨hpos, hne⟩ := length_pos_of_scanInteger htoken
    have hrest := List.length_pos_iff.2 hne
    split
    · exact (takes_throw (n := 1) (by simp)).bind (n := 0) fun h => by cases h
    · exact (takes_modify (Cursor.reaches_advance hpos (by omega))).bind fun _ => takes_pure _

theorem takes_readRealText {code : Char} : (readRealText code).Takes 1 c := by
  refine (takes_modify c.reaches_skipBlanks).bind (n := 1) fun _ => takes_get_bind ?_
  dsimp only
  split
  · rename_i negative number length htoken
    obtain ⟨hpos, hne⟩ := length_pos_of_scanReal? htoken
    have hrest := List.length_pos_iff.2 hne
    exact (takes_modify (Cursor.reaches_advance hpos (by omega))).bind fun _ => takes_pure _
  · split
    · exact (takes_throw (n := 1) (by simp)).bind (n := 0) fun h => by cases h
    · exact takes_throw (by simp)

theorem takes_readReal {code : Char} {format : Decimal.BinaryFormat} :
    (readReal code format).Takes 1 c := by
  refine takes_readRealText.bind (n := 0) fun {read c'} _ => ?_
  obtain ⟨negative, number, token⟩ := read
  dsimp only
  split
  · exact takes_pure _
  · exact takes_throw (by simp)

theorem takes_decodeScalar (prim : Prim) : (decodeScalar prim).Takes 1 c := by
  unfold decodeScalar
  split
  · exact takes_nextByte.bind fun _ => takes_pure _
  · exact takes_readInteger.bind fun _ => takes_pure _
  · exact takes_readReal.bind fun _ => takes_pure _
  · exact takes_nextUnit.bind fun _ => takes_pure _

/-! ## Structs -/

/-- A separator may be met without being there, so it takes nothing for certain. -/
theorem takes_meetSeparator (sep : Bytes) (blanksSkipped : Bool) :
    (meetSeparator sep blanksSkipped).Takes 0 c := by
  refine takes_get_bind ?_
  split
  · exact takes_modify (Cursor.reaches_advance (Nat.zero_le _) (Nat.zero_le _))
  · split
    · exact takes_pure _
    · exact takes_throw (by simp)

theorem takes_decodeFields (blanksSkipped : Bool) (fields : List Field) :
    (decodeFields blanksSkipped fields).Takes fields.length c := by
  induction fields generalizing c with
  | nil => exact takes_pure _
  | cons field fields ih =>
    rw [List.length_cons]
    refine (takes_decodeScalar field.prim).bind (n := fields.length) fun _ => ?_
    refine (takes_meetSeparator _ _).bind (n := fields.length) fun _ => ?_
    exact ih.bind (n := 0) fun _ => takes_pure _

/-- A struct takes at least a byte for each field. -/
theorem Shape.takes_decode (s : Shape) : s.decode.Takes s.fields.length c :=
  (takes_meetSeparator _ _).bind fun _ => takes_decodeFields _ _

end

/-! ## Flat nodes -/

def Layout.fieldCount : Layout → ℕ
  | primitive _ => 1
  | struct shape | structs shape => shape.fields.length

theorem Layout.fieldCount_pos {layout : Layout} (h : layout.isHollow = false) :
    0 < layout.fieldCount := by
  cases layout with
  | primitive => exact Nat.one_pos
  | struct shape | structs shape =>
    simpa [fieldCount, isHollow, Shape.isHollow, List.length_pos_iff] using h

/-- A value of a stream takes at least a byte for each field. -/
theorem FlatNode.takes_decodeNext {node : FlatNode} (hl : ∀ shape, node.layout ≠ .structs shape)
    {c : Cursor} : node.decodeNext.Takes node.layout.fieldCount c := by
  unfold decodeNext
  cases h : node.layout with
  | primitive prim => exact (takes_decodeScalar prim).map _
  | struct shape => exact shape.takes_decode.map _
  | structs shape => exact absurd h (hl shape)

/-! ## Loops -/

namespace Scan

variable {α : Type} {read : Scan α} {stops : Cursor → Bool} {n : ℕ}

/-- Reads values in a row until a test stops the loop or a reading fails: the values, the fault if
there is one, and the cursor that is left. -/
inductive Repeats (read : Scan α) (stops : Cursor → Bool) :
    Cursor → List α → Option DecodeError → Cursor → Prop
  | stop {c : Cursor} (h : stops c = true) : Repeats read stops c [] none c
  | fail {c c' : Cursor} {fault : DecodeError} (h : stops c = false)
    (hread : read c = .error fault c') : Repeats read stops c [] (some fault) c'
  | next {c c' c'' : Cursor} {a : α} {items : List α} {fault : Option DecodeError}
    (h : stops c = false) (hread : read c = .ok a c')
    (hrest : Repeats read stops c' items fault c'') : Repeats read stops c (a :: items) fault c''

/-- A loop takes what its readings take. -/
theorem Repeats.reaches (hr : ∀ c, read.Takes n c) {c c' : Cursor} {items : List α}
    {fault : Option DecodeError} (h : read.Repeats stops c items fault c') :
    c.Reaches (items.length * n) c' := by
  induction h with
  | stop h => simpa using Cursor.Reaches.refl _
  | fail h hread => simpa using (hr _).reaches_of_error hread
  | next h hread hrest ih =>
    refine ((hr _).reaches hread |>.trans ih).mono ?_
    rw [List.length_cons, Nat.succ_mul, Nat.add_comm]

/-- A loop whose readings take something ends. -/
theorem exists_repeats (hn : 0 < n) (hr : ∀ c, read.Takes n c) (stops : Cursor → Bool)
    (c : Cursor) : ∃ items fault c', read.Repeats stops c items fault c' := by
  induction hlength : c.rest.length using Nat.strong_induction_on generalizing c with
  | _ length ih =>
    cases hstop : stops c with
    | true => exact ⟨[], none, c, .stop hstop⟩
    | false =>
      cases hread : read c with
      | error fault c' => exact ⟨[], some fault, c', .fail hstop hread⟩
      | ok a c' =>
        obtain ⟨taken, htaken, hrest, -⟩ := (hr c).reaches hread
        have hshorter : c'.rest.length < length := by
          rw [← hlength, hrest, List.length_append]
          omega
        obtain ⟨items, fault, c'', hitems⟩ := ih _ hshorter c' rfl
        exact ⟨a :: items, fault, c'', .next hstop hread hitems⟩

/-- Values of `n` fields each have no more fields than the text has bytes. -/
theorem Repeats.length_mul_le (hr : ∀ c, read.Takes n c) {text : Bytes} {c' : Cursor}
    {items : List α} {fault : Option DecodeError}
    (h : read.Repeats stops (.start text) items fault c') : items.length * n ≤ text.length := by
  obtain ⟨taken, htaken, hrest, -⟩ := h.reaches hr
  have hlength := congrArg List.length hrest
  rw [List.length_append] at hlength
  exact htaken.trans (hlength ▸ Nat.le_add_right _ _)

end Scan

/-- The loop of a run of structs. -/
theorem Shape.decodeRun_of_repeats {s : Shape} (hs : s.isHollow = false) {c c' : Cursor}
    {items : List (List Scalar)} {fault : Option DecodeError}
    (h : s.decode.Repeats s.exhausted c items fault c') :
    s.decodeRun c = fault.elim (.ok items) .error := by
  induction h with
  | stop hstop =>
    rw [decodeRun, dif_pos (by simp [hstop])]
    rfl
  | fail hgo hread =>
    rw [decodeRun, dif_neg (by simp [hgo, hs])]
    split <;> simp_all
  | @next _ _ _ _ _ fault hgo hread _ ih =>
    rw [decodeRun, dif_neg (by simp [hgo, hs])]
    split
    · simp_all
    · rename_i hread'
      rw [hread, EStateM.Result.ok.injEq] at hread'
      obtain ⟨rfl, rfl⟩ := hread'
      rw [ih]
      cases fault <;> rfl

example : Shape.decodeRun ⟨[], [⟨.utf16, []⟩]⟩ (.start [0x61, 0xc3, 0x41, 0xe2]) =
    .error .unexpectedEnd := by decide +kernel

namespace FlatNode

variable {node : FlatNode}

/-- The loop of a stream, which ends at a value that cannot be decoded. -/
theorem streamed_of_repeats (hn : node.layout.isHollow = false) {c c' : Cursor}
    {values : List FlatValue} {fault : Option DecodeError}
    (h : node.decodeNext.Repeats (fun _ => false) c values fault c') :
    node.streamed c = values ∧ fault.isSome := by
  induction h with
  | stop hstop => cases hstop
  | fail hgo hread =>
    rw [streamed, dif_neg (by simp [hn])]
    split <;> simp_all
  | next hgo hread _ ih =>
    rw [streamed, dif_neg (by simp [hn])]
    split <;> simp_all

/-- A stream is built of the values that its loop gives. -/
theorem exists_build_of_streamed (hl : ∀ shape, node.layout ≠ .structs shape) (input : Bytes)
    (p : Progress) :
    ∃ p', node.build none input p = .ok (node.streamed (.start input)).length p' := by
  have hgives := gives_build node none input 0 p
  rw [Records.splitOptional, Schema.rows_streamed hl] at hgives
  obtain ⟨d, hbuild, -⟩ := hgives
  rw [List.length_map] at hbuild
  exact ⟨_, hbuild⟩

end FlatNode

/-! ## Positions in a buffer -/

def Cursor.within (buffer : Bytes) (position : ℕ) : Cursor := ⟨position, buffer.drop position⟩

/-- Taking bytes off leads to a later position of the same buffer, and not beyond its end. -/
theorem Cursor.Reaches.within {n : ℕ} {buffer : Bytes} {position : ℕ} {c : Cursor}
    (h : (Cursor.within buffer position).Reaches n c) (hp : position ≤ buffer.length) :
    ∃ stop, c = .within buffer stop ∧ position + n ≤ stop ∧ stop ≤ buffer.length := by
  obtain ⟨taken, hn, hrest, hposition⟩ := h
  have hlength := congrArg List.length hrest
  simp only [Cursor.within, List.length_drop, List.length_append] at hlength
  refine ⟨position + taken.length, ?_, by omega, by omega⟩
  have hdrop : c.rest = buffer.drop (position + taken.length) := by
    rw [← List.drop_drop, show buffer.drop position = taken ++ c.rest from hrest,
      List.drop_left]
  obtain ⟨position', rest⟩ := c
  simp_all [Cursor.within]

/-- Whether a reading goes on in its buffer, by at least `n` bytes if it succeeds and by any number
if it fails, and never beyond the end. -/
structure Scan.Advances {α : Type} (n : ℕ) (read : Scan α) : Prop where
  of_ok : ∀ {buffer position a c}, position ≤ buffer.length →
    read (.within buffer position) = .ok a c →
    ∃ stop, c = .within buffer stop ∧ position + n ≤ stop ∧ stop ≤ buffer.length
  of_error : ∀ {buffer position fault c}, position ≤ buffer.length →
    read (.within buffer position) = .error fault c →
    ∃ stop, c = .within buffer stop ∧ position ≤ stop ∧ stop ≤ buffer.length

theorem Scan.advances_of_takes {α : Type} {n : ℕ} {read : Scan α} (h : ∀ c, read.Takes n c) :
    read.Advances n where
  of_ok hp hread := ((h _).reaches hread).within hp
  of_error hp hread := ((h _).reaches_of_error hread).within hp

/-- Reading goes on in its buffer and stays in it: a scalar takes at least a byte, a separator maybe
nothing, and a struct or a value of a stream a byte for each field. So the loop that reads a run of
structs and the loop that builds a stream end on every text, and their structs or values have no
more fields together than the text has bytes. -/
theorem reading_advances {format : String} {schema : Schema} (h : parse format = .ok schema) :
    (∀ prim, (decodeScalar prim).Advances 1) ∧
    (∀ sep blanksSkipped, (meetSeparator sep blanksSkipped).Advances 0) ∧
    ∀ node : FlatNode, .flat node ∈ schema.nodes →
      (∀ shape, node.layout = .struct shape ∨ node.layout = .structs shape →
        shape.decode.Advances shape.fields.length) ∧
      (∀ shape, node.layout = .structs shape → shape.isRawByte = false → ∀ chunk,
        ∃ items fault c, shape.decode.Repeats shape.exhausted (.start chunk) items fault c ∧
          node.decode chunk = fault.elim (.ok (.structs items)) .error ∧
          items.length * shape.fields.length ≤ chunk.length) ∧
      ((∀ shape, node.layout ≠ .structs shape) →
        node.decodeNext.Advances node.layout.fieldCount ∧ ∀ input,
          ∃ values fault c,
            node.decodeNext.Repeats (fun _ => false) (.start input) values (some fault) c ∧
            node.stream (.start input) = .ok (values.map FlatValue.stored) ∧
            (∀ p, ∃ p', node.build none input p = .ok values.length p') ∧
            values.length * node.layout.fieldCount ≤ input.length) := by
  refine ⟨fun prim => advances_of_takes fun _ => takes_decodeScalar prim,
    fun sep blanksSkipped => advances_of_takes fun _ => takes_meetSeparator sep blanksSkipped, ?_⟩
  intro node hnode
  have hn := (separated_of_parse h).isHollow_eq_false hnode
  refine ⟨fun shape _ => advances_of_takes fun _ => shape.takes_decode, ?_, ?_⟩
  · intro shape hl hraw chunk
    rw [hl] at hn
    have htakes : ∀ c, shape.decode.Takes shape.fields.length c := fun _ => shape.takes_decode
    obtain ⟨items, fault, c, hloop⟩ :=
      exists_repeats (Layout.fieldCount_pos hn) htakes shape.exhausted (.start chunk)
    refine ⟨items, fault, c, hloop, ?_, hloop.length_mul_le htakes⟩
    simp only [FlatNode.decode, hl, hraw, Shape.decodeRun_of_repeats hn hloop]
    cases fault <;> rfl
  · intro hl
    have htakes : ∀ c, node.decodeNext.Takes node.layout.fieldCount c :=
      fun _ => FlatNode.takes_decodeNext hl
    refine ⟨advances_of_takes htakes, fun input => ?_⟩
    obtain ⟨values, fault, c, hloop⟩ :=
      exists_repeats (Layout.fieldCount_pos hn) htakes (fun _ => false) (.start input)
    obtain ⟨rfl, hfault⟩ := FlatNode.streamed_of_repeats hn hloop
    obtain ⟨fault, rfl⟩ := Option.isSome_iff_exists.1 hfault
    exact ⟨_, fault, c, hloop, node.stream_eq _,
      FlatNode.exists_build_of_streamed hl input, hloop.length_mul_le htakes⟩

def stampSample : FlatNode := ⟨⟨0, "l,S"⟩, .struct ⟨[], [⟨.i32, [44]⟩, ⟨.u16, []⟩]⟩⟩

def unitsSample : FlatNode := ⟨⟨0, "u*"⟩, .structs ⟨[], [⟨.utf16, []⟩]⟩⟩

/-- Units that are malformed or cut short, and a stream whose last pair of numbers is not
complete. -/
theorem reading_advances_samples :
    parse "u*" = .ok (.flat unitsSample) ∧ parse "l,S" = .ok (.flat stampSample) ∧
      (∃ items fault c, Scan.Repeats (Shape.decode ⟨[], [⟨.utf16, []⟩]⟩)
          (Shape.exhausted ⟨[], [⟨.utf16, []⟩]⟩) (.start [0xf0, 0x61, 0xc3, 0x41, 0xe2])
          items fault c ∧
        unitsSample.decode [0xf0, 0x61, 0xc3, 0x41, 0xe2] =
          fault.elim (.ok (.structs items)) .error ∧ items.length * 1 ≤ 5) ∧
      ∃ values fault c, stampSample.decodeNext.Repeats (fun _ => false)
          (.start (Bytes.ofText "1,2 3,4 5")) values (some fault) c ∧ values.length * 2 ≤ 9 := by
  have hunits : parse "u*" = .ok (.flat unitsSample) := by decide +kernel
  have hstamp : parse "l,S" = .ok (.flat stampSample) := by decide +kernel
  obtain ⟨-, -, hnodes⟩ := reading_advances hunits
  obtain ⟨-, hrun, -⟩ := hnodes unitsSample (List.mem_singleton_self _)
  obtain ⟨-, -, hnodes'⟩ := reading_advances hstamp
  obtain ⟨-, -, hstream⟩ := hnodes' stampSample (List.mem_singleton_self _)
  obtain ⟨values, fault, c, hloop, -, -, hlength⟩ :=
    (hstream fun shape => by simp [stampSample]).2 (Bytes.ofText "1,2 3,4 5")
  exact ⟨hunits, hstamp, hrun _ rfl rfl _, values, fault, c, hloop, hlength⟩

end RecordStore
