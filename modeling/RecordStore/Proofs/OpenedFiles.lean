import RecordStore.Proofs.BuiltArchives
import RecordStore.Proofs.WideShapes

/-!
# Files that open

A node whose values are too wide for the field of their width makes its file unreadable. Hence a
file of rows opens if and only if the widths of its schema fit their fields, and it is opened as the
container of its rows. The widths of a format of half a gibibyte need not fit.

## Main definitions

* `Take.Fails` — a reader gives nothing for a byte string, whatever follows.
* `Archive.Opens` — whether a file can be opened.

## Main statements

* `Schema.storable_or_fails` — sections fit their fields, or cannot be opened.
* `Archive.eq_of_open_file` — what a file that opens is opened as.
* `Archive.opens_file_iff`, `Archive.built_file_opens_iff` — which files open.
* `Archive.wide_file_does_not_open` — a file that is built and does not open.
-/

namespace RecordStore

/-! ## Readers that fail -/

namespace Take

variable {α β : Type} {read : Take α} {next : α → Take β} {front back : Bytes}

/-- Whatever follows the bytes, reading fails. -/
def Fails (read : Take α) (bytes : Bytes) : Prop :=
  ∀ position rest, ∃ e, read ⟨position, bytes ++ rest⟩ = .error e

theorem Fails.append (h : Fails read front) (back : Bytes) : Fails read (front ++ back) := by
  intro position rest
  rw [List.append_assoc]
  exact h position (back ++ rest)

theorem Fails.bind (h : Fails read front) : Fails (read >>= next) front := by
  intro position rest
  obtain ⟨e, he⟩ := h position rest
  exact ⟨e, by rw [bind_apply, he]⟩

theorem Reads.bind_fails {a : α} (h : Reads read front a) (hn : Fails (next a) back) :
    Fails (read >>= next) (front ++ back) := by
  intro position rest
  obtain ⟨e, he⟩ := hn (position + front.length) rest
  rw [bind_apply, List.append_assoc, h position (back ++ rest)]
  exact ⟨e, he⟩

theorem Reads.bind_fails_nil {a : α} (h : Reads read front a) (hn : Fails (next a) []) :
    Fails (read >>= next) front := by
  simpa using h.bind_fails hn

theorem Reads.nil_bind_fails {a : α} (h : Reads read [] a) (hn : Fails (next a) back) :
    Fails (read >>= next) back :=
  h.bind_fails hn

theorem Fails.ofExcept {outcome : Except ReadError α} (h : ∃ e, outcome = .error e)
    (bytes : Bytes) : Fails (liftM outcome) bytes := by
  obtain ⟨e, rfl⟩ := h
  exact fun _ _ => ⟨e, rfl⟩

end Take

namespace Container

open Take (Reads Fails)

/-- A width that does not fit its field is not read back. -/
theorem fails_takeWidth {node : FlatNode} (hw : 2 ^ 32 ≤ node.layout.width) :
    Fails (takeWidth node) (Bytes.ofNat 4 node.layout.width) := by
  have hread : Reads (Take.number 4) (Bytes.ofNat 4 node.layout.width)
      (node.layout.width % 2 ^ 32) := by
    have := (Reads.bytes (Bytes.length_ofNat 4 node.layout.width)).map Bytes.toNat
    rwa [Bytes.toNat_ofNat] at this
  have hne : node.layout.width % 2 ^ 32 ≠ node.layout.width := by
    have := Nat.mod_lt node.layout.width (Nat.two_pow_pos 32)
    omega
  have hrequire : ∃ e, require (node.layout.width % 2 ^ 32 = node.layout.width) node.label.ordinal
      (.elementWidth (node.layout.width % 2 ^ 32) node.layout.width) = .error e :=
    ⟨_, if_neg (by simpa using hne)⟩
  exact hread.bind_fails_nil (Fails.bind (Fails.ofExcept hrequire []))

/-- A body that cannot be read makes its section fail. -/
theorem exists_readBody_error {α : Type} {read : Take α} {raw : RawSection}
    (h : Fails read raw.body) (ordinal : Nat) (tag : Section.Tag) :
    ∃ e, readBody ordinal tag raw read = .error e := by
  obtain ⟨e, he⟩ := h 0 []
  rw [List.append_nil] at he
  rw [readBody]
  split
  · exact ⟨_, rfl⟩
  · exact ⟨e, by rw [show Cursor.start raw.body = ⟨0, raw.body⟩ from rfl, he]; rfl⟩

end Container

namespace Schema

open Take (Reads Fails)

variable {rows : List Value}

/-- A section whose body is read as a view, and behind which reading fails. -/
theorem fails_section {α β : Type} {label : Label} {args : List String}
    (hs : label.Storable args) {tag : Section.Tag} {body : Bytes} (hb : body.length < wordLimit)
    {read : Take α} {view : α} (hv : Reads read body view)
    {next : Container.RawSection → Take β} {back : Bytes}
    (hn : ∀ raw : Container.RawSection,
      Container.readBody label.ordinal tag raw read = .ok view → Fails (next raw) back) :
    Fails (Container.takeSection label.ordinal >>= next)
      (Section.write tag label.ordinal args body ++ back) :=
  (Container.reads_takeSection tag hs.1 hs.2 hb).bind_fails
    (hn _ (Container.readBody_eq_ok label.ordinal rfl hv))

/-- The section of a flat node whose width does not fit cannot be opened. -/
theorem fails_flat {node : FlatNode} (hlabel : node.label.Storable [])
    (hw : 2 ^ 32 ≤ node.layout.width) (hl : (node.section rows).length < wordLimit) :
    Fails (Container.takeNode (flat node)) (node.section rows) := by
  obtain ⟨label, layout⟩ := node
  cases layout with
  | structs shape =>
    have hbody := Nat.lt_of_le_of_lt (length_body_le ..) hl
    refine (Container.reads_takeSection .ragged hlabel.1 hlabel.2 hbody).bind_fails_nil ?_
    refine Fails.bind (Fails.ofExcept (Container.exists_readBody_error ?_ ..) [])
    simp only [Section.raggedBody, List.append_assoc]
    exact (@Container.fails_takeWidth ⟨label, .structs shape⟩ hw).bind.append _
  | _ =>
    have hbody := Nat.lt_of_le_of_lt (length_body_le ..) hl
    refine (Container.reads_takeSection .flat hlabel.1 hlabel.2 hbody).bind_fails_nil ?_
    refine Fails.bind (Fails.ofExcept (Container.exists_readBody_error ?_ ..) [])
    simp only [Section.flatBody, List.append_assoc]
    exact (@Container.fails_takeWidth ⟨label, _⟩ hw).bind.append _

/-- Sections whose ordinals and arguments fit have widths that fit, or cannot be opened. -/
theorem storable_or_fails {s : Schema} (hs : s.Addressed) (hr : ∀ row ∈ rows, s.Holds row)
    (hl : (s.sections rows).length < wordLimit) :
    s.Storable ∨ Fails (Container.takeNode s) (s.sections rows) := by
  have hrows := Nat.lt_of_le_of_lt (length_le_length_sections hs hr) hl
  induction s generalizing rows with
  | flat node =>
    rcases Nat.lt_or_ge node.layout.width (2 ^ 32) with hw | hw
    · exact Or.inl ⟨hs.1, hw, hs.2⟩
    · exact Or.inr (fails_flat hs.1 hw hl)
  | sequence label element sep args ih =>
    obtain ⟨hlabel, helement⟩ := hs
    simp only [sections, List.length_append] at hl
    have hbody := length_body_le .shape label.ordinal args
      (Section.shapeBody (rows.map fun row => row.items.length))
    have hitems := length_le_length_sections helement (holds_items hr)
    have hsum : (rows.map fun row => row.items.length).sum = (rows.flatMap Value.items).length :=
      List.length_flatMap.symm
    refine (ih helement (holds_items hr) (by omega) (by omega)).imp (fun h => ⟨hlabel, h⟩) ?_
    intro hfails
    refine fails_section hlabel (by omega)
      (Container.reads_shapeBody label.ordinal (by simpa using hrows) (by omega))
      fun raw hread => ?_
    exact (Reads.ofExcept hread).nil_bind_fails hfails.bind
  | set label keys => exact Or.inl hs
  | map label keys value sep ih =>
    obtain ⟨hlabel, hcount, hvalue⟩ := hs
    simp only [sections, List.length_append] at hl
    have hbody := length_body_le (Container.keyedTag keys) label.ordinal keys.args
      (keys.storedKeys false rows).body
    have hpayloads := length_le_length_sections hvalue (holds_payloads hr)
    refine (ih hvalue (holds_payloads hr) (by omega) (by omega)).imp
      (fun h => ⟨hlabel, hcount, h⟩) fun hfails => ?_
    refine fails_section hlabel (by omega) (reads_keys false label.ordinal (by omega))
      fun raw hread => ?_
    exact (Reads.ofExcept hread).nil_bind_fails hfails.bind
  | pair label first second sep ih₁ ih₂ =>
    obtain ⟨hlabel, hfirst, hsecond⟩ := hs
    simp only [sections, List.length_append] at hl
    have hbody : (Section.pairBody rows.length).length < wordLimit := by
      rw [Section.pairBody, Bytes.length_ofNat]
      decide
    have h₁ := ih₁ hfirst (holds_first hr) (by omega) (by simpa using hrows)
    have h₂ := ih₂ hsecond (holds_second hr) (by omega) (by simpa using hrows)
    rcases h₁ with h₁ | hfails
    · refine h₂.imp (fun h₂ => ⟨hlabel, h₁, h₂⟩) fun hfails => ?_
      refine fails_section hlabel hbody (@Take.Reads.number 8 _ hrows) fun raw hread => ?_
      refine (Reads.ofExcept hread).nil_bind_fails ?_
      exact (reads_sections h₁ (holds_first hr) (by omega)).bind_fails hfails.bind
    · refine Or.inr (fails_section hlabel hbody (@Take.Reads.number 8 _ hrows) fun raw hread => ?_)
      exact (Reads.ofExcept hread).nil_bind_fails (hfails.bind.append _)

end Schema

/-- A file that opens is opened as the container of its rows. -/
theorem Archive.eq_of_open_file {s : Schema} {rows : List Value} (hs : s.Addressed)
    (hf : (Bytes.ofText s.source).length < 2 ^ 32) (hr : ∀ row ∈ rows, s.Holds row)
    (hl : (s.file rows).length < wordLimit) {archive : Archive}
    (ha : Archive.open s (s.file rows) = .ok archive) :
    s.Storable ∧ archive = ⟨s, s.container rows⟩ := by
  have hsections : (s.sections rows).length < wordLimit := by
    rw [Schema.file, List.length_append] at hl
    omega
  rcases Schema.storable_or_fails hs hr hsections with hstorable | hfails
  · exact ⟨hstorable, Except.ok.inj (ha.symm.trans (Archive.open_file hstorable hf hr hl))⟩
  · obtain ⟨e, he⟩ := hfails 0 []
    rw [List.append_nil] at he
    have hopen : Container.open s (s.sections rows) = .error e := by
      rw [Container.open, show Cursor.start (s.sections rows) = ⟨0, s.sections rows⟩ from rfl, he]
      rfl
    rw [Archive.open, Schema.file, Header.read_write hf, ok_bind] at ha
    simp only [ne_eq, not_true_eq_false, if_false, List.drop_left, hopen] at ha
    cases ha

def Archive.Opens (schema : Schema) (bytes : Bytes) : Prop :=
  ∃ archive, Archive.open schema bytes = .ok archive

/-- The file of rows opens if and only if the widths fit their fields. -/
theorem Archive.opens_file_iff {s : Schema} {rows : List Value} (hs : s.Addressed)
    (hf : (Bytes.ofText s.source).length < 2 ^ 32) (hr : ∀ row ∈ rows, s.Holds row)
    (hl : (s.file rows).length < wordLimit) : Archive.Opens s (s.file rows) ↔ s.WidthsFit := by
  constructor
  · rintro ⟨archive, ha⟩
    obtain ⟨hstorable, -⟩ := eq_of_open_file hs hf hr hl ha
    exact (Schema.storable_iff.1 hstorable).2
  · intro hw
    exact ⟨_, open_file (hs.storable hw) hf hr hl⟩

example : Archive.instances <$> Archive.open (.flat ⟨⟨0, "l"⟩, .primitive .i32⟩)
    ((Schema.flat ⟨⟨0, "l"⟩, .primitive .i32⟩).file [.flat (.scalar ⟨.i32, 5⟩)]) = .ok 1 := by
  decide +kernel

/-! ## Built files -/

/-- A build says how many bytes it has written and which format it was given. Its file opens if and
only if the widths of the schema fit, and then all of its instances can be read. -/
theorem Archive.built_file_opens_iff {format : String} {schema : Schema}
    (hp : parse format = .ok schema) (hf : (Bytes.ofText format).length < 2 ^ 32)
    (ha : schema.ArgsFit) {staging : Staging} {outer : Option Bytes}
    {input : Except SystemError Bytes} {output : Bytes} {summary : BuildSummary}
    (hb : build staging schema outer input = (output, .ok summary))
    (hl : output.length < wordLimit) :
    summary.bytesWritten = output.length ∧
      (∃ format', embeddedFormat output = .ok format' ∧ parse format' = .ok schema) ∧
      (Archive.Opens schema output ↔ schema.WidthsFit) ∧
      ∀ archive, Archive.open schema output = .ok archive →
        archive.instances = summary.instances ∧
          ∀ i < summary.instances, (∃ value, archive.read i = .ok value) ∧
            ∃ text, archive.readText i = .ok text := by
  have haddressed := Schema.addressed_of_parse hp hf ha
  have hsource : (Bytes.ofText schema.source).length < 2 ^ 32 := by rwa [parse_source hp]
  obtain ⟨text, rows, skipped, -, hrows, rfl, rfl⟩ := rows?_of_build (numberedFrom_of_parse hp) hb
  have hr := Schema.holds_of_rows? hrows
  refine ⟨rfl, ⟨schema.source, embeddedFormat_file hsource, by rwa [parse_source hp]⟩,
    Archive.opens_file_iff haddressed hsource hr hl, fun archive hopen => ?_⟩
  obtain ⟨hs, rfl⟩ := Archive.eq_of_open_file haddressed hsource hr hl hopen
  refine ⟨Schema.instances_container schema rows, fun i hi => ?_⟩
  have hread := Archive.read_file hs hr hl hi
  obtain ⟨text, htext⟩ := Schema.exists_encode (hr _ (List.getElem_mem hi))
  refine ⟨⟨_, hread⟩, text, ?_⟩
  rw [Archive.readText, hread, ok_bind, htext]
  rfl

theorem eq_of_snd_eq {α β : Type} {x : α × β} {b : β} (h : x.2 = b) : x = (x.1, b) :=
  Prod.ext rfl h

def nestedSample : Schema :=
  .sequence ⟨0, "V(V(l),);"⟩
    (.sequence ⟨1, "V(l),"⟩ (.flat ⟨⟨2, "l"⟩, .primitive .i32⟩) [0x2c] []) [0x3b] []

theorem parse_nestedSample : parse "V(V(l),);" = .ok nestedSample := by decide +kernel

theorem argsFit_nestedSample : nestedSample.ArgsFit := by
  simp only [Schema.ArgsFit, nestedSample, Schema.nodes]
  decide

theorem length_source_nestedSample : (Bytes.ofText "V(V(l),);").length = 9 := by decide

theorem widthsFit_nestedSample : nestedSample.WidthsFit :=
  widthsFit_of_parse parse_nestedSample (by rw [length_source_nestedSample]; decide)

theorem build_nestedSample : (build .memory nestedSample none
    (.ok (Bytes.ofText "5,x,6,;7,;"))).2 = .ok ⟨1, 0, 154⟩ := by decide +kernel

theorem Archive.built_sample_opens :
    ∃ output archive, build .memory nestedSample none (.ok (Bytes.ofText "5,x,6,;7,;")) =
        (output, .ok ⟨1, 0, 154⟩) ∧ output.length = 154 ∧
      Archive.open nestedSample output = .ok archive ∧ archive.instances = 1 ∧
        ∃ text, archive.readText 0 = .ok text := by
  have hb := eq_of_snd_eq build_nestedSample
  have hformat := length_source_nestedSample
  have hlength := (bytesWritten_of_build (numberedFrom_of_parse parse_nestedSample) hb).symm
  obtain ⟨-, -, hopens, hread⟩ :=
    Archive.built_file_opens_iff parse_nestedSample (by omega) argsFit_nestedSample hb
      (by rw [hlength]; decide)
  obtain ⟨archive, hopen⟩ := hopens.2 widthsFit_nestedSample
  obtain ⟨hinstances, hreads⟩ := hread archive hopen
  exact ⟨_, archive, hb, hlength, hopen, hinstances, (hreads 0 (by decide)).2⟩

/-- A file of structs has a header of 20 bytes and the format, and without rows 27 more. -/
theorem length_file_nil (label : Label) (shape : Shape) :
    ((Schema.flat ⟨label, .struct shape⟩).file []).length =
      (Bytes.ofText label.source).length + 47 := by
  have hmagic : Header.magic.length = 8 := rfl
  have hargs : (Bytes.ofText (",".intercalate [])).length = 0 := by decide
  simp only [Schema.file, Schema.source, Schema.label, Header.write, Schema.sections,
    FlatNode.section, Section.write, Section.flatBody, List.length_append, Bytes.length_ofNat,
    List.map_nil, List.flatten_nil, List.length_nil, hmagic, hargs]
  omega

/-- A file of many numbers without rows is built, but does not open. -/
theorem not_opens_numbers (sep : Format.WeakText) {count : ℕ} (h : 2 ^ 29 ≤ count)
    (hf : count * (sep.bytes.length + 1) < 2 ^ 32) :
    ∃ output summary, build .memory (.flat (numbersNode sep count)) (some [0x3b]) (.ok []) =
        (output, .ok summary) ∧
      output.length < wordLimit ∧ ¬Archive.Opens (.flat (numbersNode sep count)) output := by
  have hp := parse_numbersText sep (show 2 ≤ count by omega)
  have hformat : (Bytes.ofText (numbersText sep count)).length < 2 ^ 32 := by
    rwa [length_numbersText]
  have hsplit : Records.splitOptional (some [0x3b]) [] = [] :=
    Records.split_nil (List.cons_ne_nil _ _)
  have hrows : (Schema.flat (numbersNode sep count)).rows? (some [0x3b])
      (Records.splitOptional (some [0x3b]) []) = some ([], 0) := by
    rw [hsplit]
    rfl
  have hlength : ((Schema.flat (numbersNode sep count)).file []).length < wordLimit := by
    have hfile : ((Schema.flat (numbersNode sep count)).file []).length =
        (Bytes.ofText (numbersText sep count)).length + 47 := length_file_nil _ _
    rw [hfile]
    exact Nat.lt_trans (Nat.add_lt_add_right hformat 47) (by decide)
  have hopens := Archive.opens_file_iff (Schema.addressed_of_parse hp hformat (argsFit_numbers sep))
    hformat (List.forall_mem_nil _) hlength
  exact ⟨_, _, build_of_rows? (by simp) (numberedFrom_of_parse hp) hrows, hlength,
    fun h' => not_widthsFit_numbers sep h (hopens.1 h')⟩

/-- A format of 2 ^ 29 numbers is built, but its file does not open. -/
theorem Archive.wide_file_does_not_open :
    parse (numbersText .empty (2 ^ 29)) = .ok (.flat (numbersNode .empty (2 ^ 29))) ∧
      (Bytes.ofText (numbersText .empty (2 ^ 29))).length < 2 ^ 32 ∧
      (Schema.flat (numbersNode .empty (2 ^ 29))).ArgsFit ∧
      ∃ output summary,
        build .memory (.flat (numbersNode .empty (2 ^ 29))) (some [0x3b]) (.ok []) =
          (output, .ok summary) ∧
        output.length < wordLimit ∧
          ¬Archive.Opens (.flat (numbersNode .empty (2 ^ 29))) output := by
  refine ⟨parse_numbersText _ (by omega), ?_, argsFit_numbers _,
    not_opens_numbers _ le_rfl (by decide)⟩
  rw [length_numbersText]
  decide

end RecordStore
