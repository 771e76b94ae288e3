import Mathlib.Data.List.TakeWhile
import RecordStore.Proofs.RowsOfText
import RecordStore.Proofs.ScalarTexts

/-!
# Texts of flat values

Where each separator is empty or a mark, and each number has a separator behind it, the text of a
flat value is read back as that value, up to its NaNs, and takes the whole input.

## Main definitions

* `Layout.Legible` — a layout of this kind.
* `Layout.Plain` — a legible layout without real numbers.
* `FlatValue.quiet` — the value that is read back.

## Main statements

* `FlatNode.decode_text`, `FlatNode.streamed_text` — a text is read back.
* `FlatNode.mem_of_mem_text` — the marks in the text of a value that was decoded.
-/

namespace RecordStore

/-! ## Legible layouts -/

def PlainSeparator (sep : Bytes) : Prop := sep = [] ∨ ∃ b, Bytes.isMark b = true ∧ sep = [b]

namespace Layout

def prims : Layout → List Prim
  | primitive prim => [prim]
  | struct shape | structs shape => shape.fields.map (·.prim)

/-- Whether each number has a separator behind it; the last field of a lone struct needs none. -/
def EndsNumbers : Layout → Prop
  | primitive _ => True
  | struct shape =>
    ∀ field ∈ shape.fields.dropLast, field.prim.skipsBlanks = true → field.sep ≠ []
  | structs shape => ∀ field ∈ shape.fields, field.prim.skipsBlanks = true → field.sep ≠ []

/-- Whether each separator is empty or a mark, and each number is ended. -/
structure Legible (layout : Layout) : Prop where
  marks : ∀ sep ∈ layout.separators, PlainSeparator sep
  ends_numbers : layout.EndsNumbers

/-- Whether there is no real number, each separator is empty or a mark, and each number is
ended. -/
structure Plain (layout : Layout) : Prop where
  no_reals : ∀ prim ∈ layout.prims, prim ≠ .f32 ∧ prim ≠ .f64
  marks : ∀ sep ∈ layout.separators, PlainSeparator sep
  ends_numbers : layout.EndsNumbers

theorem Plain.legible {layout : Layout} (h : layout.Plain) : layout.Legible :=
  ⟨h.marks, h.ends_numbers⟩

end Layout

/-- The value that the text of a value is read back as: the same one, but one quiet NaN for all
NaNs. -/
def FlatValue.quiet : FlatValue → FlatValue
  | .scalar s => .scalar s.quiet
  | .struct fields => .struct (fields.map Scalar.quiet)
  | .structs items => .structs (items.map (List.map Scalar.quiet))
  | .bytes data => .bytes data

theorem FlatValue.quiet_quiet (value : FlatValue) : value.quiet.quiet = value.quiet := by
  cases value <;> simp [quiet, Function.comp_def, Scalar.quiet_quiet]

/-! ## Fields -/

def NumbersEnd : List Field → (rest : Bytes) → Prop
  | [], _ => True
  | field :: fields, rest =>
    (field.prim.skipsBlanks = true → field.sep = [] → fields = [] ∧ rest = []) ∧
      NumbersEnd fields rest

theorem numbersEnd_of_ne_nil {fields : List Field}
    (h : ∀ field ∈ fields, field.prim.skipsBlanks = true → field.sep ≠ []) (rest : Bytes) :
    NumbersEnd fields rest := by
  induction fields with
  | nil => trivial
  | cons field fields ih =>
    obtain ⟨hf, h⟩ := List.forall_mem_cons.1 h
    exact ⟨fun hp hs => absurd hs (hf hp), ih h⟩

theorem numbersEnd_of_dropLast {fields : List Field}
    (h : ∀ field ∈ fields.dropLast, field.prim.skipsBlanks = true → field.sep ≠ []) :
    NumbersEnd fields [] := by
  induction fields with
  | nil => trivial
  | cons field fields ih =>
    cases fields with
    | nil => exact ⟨fun _ _ => ⟨rfl, rfl⟩, trivial⟩
    | cons next fields =>
      rw [List.dropLast_cons_cons] at h
      obtain ⟨hf, h⟩ := List.forall_mem_cons.1 h
      exact ⟨fun hp hs => absurd hs (hf hp), ih h⟩

theorem meetSeparator_front (blanksSkipped : Bool) {sep rest : Bytes} {c : Cursor}
    (h : c.rest = sep ++ rest) :
    ∃ c', meetSeparator sep blanksSkipped c = .ok () c' ∧ c'.rest = rest := by
  refine ⟨c.advance sep.length, ?_, by simp [Cursor.advance, h]⟩
  simp [meetSeparator, Scan.bind_apply, Scan.get_apply, h, Scan.modify_apply]

theorem meetSeparator_suffix {sep : Bytes} {blanksSkipped : Bool} {c c' : Cursor}
    (h : meetSeparator sep blanksSkipped c = .ok () c') : c'.rest <:+ c.rest := by
  simp only [meetSeparator, Scan.bind_apply, Scan.get_apply] at h
  split at h
  · simp only [Scan.modify_apply, EStateM.Result.ok.injEq, true_and] at h
    exact h ▸ rest_advance_suffix c _
  · split at h
    · rw [(Scan.pure_eq_ok.1 h).2]
    · cases h

theorem decodeFields_fieldsText (blanksSkipped : Bool) {fields : List Field}
    {scalars : List Scalar} {c : Cursor} {rest : Bytes}
    (hfit : scalars.map (·.prim) = fields.map (·.prim))
    (hsep : ∀ field ∈ fields, PlainSeparator field.sep) (hend : NumbersEnd fields rest)
    (h : c.rest = fieldsText scalars fields ++ rest) :
    ∃ c', decodeFields blanksSkipped fields c = .ok (scalars.map Scalar.quiet) c' ∧
      c'.rest = rest := by
  induction fields generalizing scalars c with
  | nil =>
    obtain rfl : scalars = [] := List.map_eq_nil_iff.1 hfit
    exact ⟨c, rfl, h⟩
  | cons field fields ih =>
    cases scalars with
    | nil => cases hfit
    | cons s scalars =>
      obtain ⟨hprim, hfit⟩ : s.prim = field.prim ∧ _ := List.cons.inj hfit
      obtain ⟨hsep₁, hsep⟩ := List.forall_mem_cons.1 hsep
      have hrest : c.rest =
          encodeScalar s ++ (field.sep ++ (fieldsText scalars fields ++ rest)) := by
        simp [h, fieldsText]
      have hmark : s.prim.skipsBlanks = true →
          ∀ b ∈ (field.sep ++ (fieldsText scalars fields ++ rest)).head?,
            Bytes.isMark b = true := by
        intro hp b hb
        rcases hsep₁ with hnil | ⟨mark, hmark, hone⟩
        · obtain ⟨rfl, rfl⟩ := hend.1 (hprim ▸ hp) hnil
          simp_all [fieldsText]
        · obtain rfl : mark = b := by simpa [hone] using hb
          exact hmark
      obtain ⟨c₁, hscalar, hc₁⟩ := decodeScalar_encodeScalar hmark hrest
      obtain ⟨c₂, hmeet, hc₂⟩ := meetSeparator_front blanksSkipped hc₁
      obtain ⟨c₃, hfields, hc₃⟩ := ih hfit hsep hend.2 hc₂
      refine ⟨c₃, ?_, hc₃⟩
      rw [hprim] at hscalar
      simp only [decodeFields, Scan.bind_apply, hscalar, hmeet, hfields, Scan.pure_apply,
        List.map_cons]

/-- Reading fields leaves an end of the bytes, and the marks in their text that are no separators
were read. -/
theorem decodeFields_bytes {blanksSkipped : Bool} {fields : List Field} {scalars : List Scalar}
    {c c' : Cursor} (hsep : ∀ field ∈ fields, PlainSeparator field.sep)
    (h : decodeFields blanksSkipped fields c = .ok scalars c') :
    c'.rest <:+ c.rest ∧ ∀ b, Bytes.isMark b = true → (∀ field ∈ fields, field.sep ≠ [b]) →
      b ∈ fieldsText scalars fields → b ∈ c.rest := by
  induction fields generalizing scalars c with
  | nil =>
    obtain ⟨rfl, rfl⟩ := Scan.pure_eq_ok.1 h
    simp [fieldsText]
  | cons field fields ih =>
    simp only [decodeFields, Scan.bind_eq_ok, Scan.pure_eq_ok] at h
    obtain ⟨s, c₁, hscalar, _, c₂, hmeet, ss, c₃, hfields, rfl, rfl⟩ := h
    obtain ⟨hsep₁, hsep⟩ := List.forall_mem_cons.1 hsep
    obtain ⟨hsuffix₁, hmarks₁⟩ := decodeScalar_bytes hscalar
    have hsuffix₂ := (meetSeparator_suffix hmeet).trans hsuffix₁
    obtain ⟨hsuffix₃, hmarks₃⟩ := ih hsep hfields
    refine ⟨hsuffix₃.trans hsuffix₂, ?_⟩
    intro b hb hne hm
    obtain ⟨hne₁, hne⟩ := List.forall_mem_cons.1 hne
    have hcons : fieldsText (s :: ss) (field :: fields) =
        encodeScalar s ++ (field.sep ++ fieldsText ss fields) := by
      simp [fieldsText]
    rw [hcons, List.mem_append, List.mem_append] at hm
    rcases hm with hm | hm | hm
    · exact hmarks₁ b hb hm
    · rcases hsep₁ with hnil | ⟨mark, -, hone⟩
      · simp [hnil] at hm
      · exact absurd (by simp_all) hne₁
    · exact hsuffix₂.subset (hmarks₃ b hb hne hm)

/-! ## Structs -/

namespace Shape

variable {s : Shape} {item : List Scalar} {items : List (List Scalar)} {c c' : Cursor}

theorem decode_text {rest : Bytes} (hfit : s.fits item = true)
    (hsep : ∀ sep ∈ s.separators, PlainSeparator sep) (hend : NumbersEnd s.fields rest)
    (h : c.rest = s.text item ++ rest) :
    ∃ c', s.decode c = .ok (item.map Scalar.quiet) c' ∧ c'.rest = rest := by
  rw [text, List.append_assoc] at h
  obtain ⟨c₁, hmeet, hc₁⟩ := meetSeparator_front s.skipsBlanks h
  obtain ⟨c₂, hfields, hc₂⟩ := decodeFields_fieldsText s.skipsBlanks
    (fits_iff.1 hfit)
    (fun field hf => hsep _ (List.mem_cons_of_mem _ (List.mem_map_of_mem hf))) hend hc₁
  exact ⟨c₂, by simp only [decode, Scan.bind_apply, hmeet, hfields], hc₂⟩

/-- Reading a struct leaves an end of the bytes, and the marks in its text that are no separators
were read. -/
theorem decode_bytes (hsep : ∀ sep ∈ s.separators, PlainSeparator sep)
    (h : s.decode c = .ok item c') :
    c'.rest <:+ c.rest ∧
      ∀ b, Bytes.isMark b = true → [b] ∉ s.separators → b ∈ s.text item → b ∈ c.rest := by
  simp only [decode, Scan.bind_eq_ok] at h
  obtain ⟨_, c₁, hmeet, hfields⟩ := h
  have hsuffix₁ := meetSeparator_suffix hmeet
  obtain ⟨hsuffix₂, hmarks⟩ := decodeFields_bytes
    (fun field hf => hsep _ (List.mem_cons_of_mem _ (List.mem_map_of_mem hf))) hfields
  refine ⟨hsuffix₂.trans hsuffix₁, ?_⟩
  intro b hb hne hm
  obtain ⟨hlead, hne⟩ : s.leading ≠ [b] ∧ ∀ field ∈ s.fields, field.sep ≠ [b] := by
    grind [separators]
  rw [text, List.mem_append] at hm
  rcases hm with hm | hm
  · rcases hsep s.leading List.mem_cons_self with hnil | ⟨mark, -, hone⟩
    · simp [hnil] at hm
    · exact absurd (by simp_all) hlead
  · exact hsuffix₁.subset (hmarks b hb hne hm)

/-- A struct whose text begins with a number does not begin with a blank. -/
theorem skipBlanks_text {rest : Bytes} (hs : s.skipsBlanks = true) (hfit : s.fits item = true)
    (h : c.rest = s.text item ++ rest) : c.skipBlanks.rest = c.rest := by
  have hfit := fits_iff.1 hfit
  simp only [skipsBlanks, Bool.and_eq_true, List.isEmpty_iff] at hs
  obtain ⟨hlead, hs⟩ := hs
  cases hf : s.fields with
  | nil => simp [hf] at hs
  | cons field fields =>
    cases item with
    | nil => simp [hf] at hfit
    | cons first item =>
      have hprim : first.prim = field.prim := by simp_all
      have hfirst : first.prim.skipsBlanks = true := by simp_all
      simp only [text, hlead, fieldsText, hf, List.zipWith_cons_cons, List.flatten_cons,
        List.nil_append, List.append_assoc] at h
      exact skipBlanks_encodeScalar hfirst h

theorem decodeRun_text (hn : s.isHollow = false) (hfit : ∀ item ∈ items, s.fits item = true)
    (hsep : ∀ sep ∈ s.separators, PlainSeparator sep)
    (hend : ∀ field ∈ s.fields, field.prim.skipsBlanks = true → field.sep ≠ [])
    (h : c.rest = items.flatMap s.text) :
    s.decodeRun c = .ok (items.map (List.map Scalar.quiet)) := by
  induction items generalizing c with
  | nil =>
    rw [decodeRun, dif_pos (by simp_all [exhausted, Cursor.atEnd])]
    rfl
  | cons item items ih =>
    obtain ⟨hfit₁, hfit⟩ := List.forall_mem_cons.1 hfit
    rw [List.flatMap_cons] at h
    obtain ⟨c', hd, hc'⟩ := decode_text hfit₁ hsep (numbersEnd_of_ne_nil hend _) h
    have hne : c.rest ≠ [] := by
      have hlength := length_rest_decode hd
      have hfields : 0 < s.fields.length := by
        simpa [isHollow, List.length_pos_iff] using hn
      rw [← List.length_pos_iff]
      omega
    have hexhausted : s.exhausted c = false := by
      by_contra hex
      obtain ⟨hs, hblanks⟩ : s.skipsBlanks = true ∧ c.onlyBlanks = true := by
        simpa [exhausted, Cursor.atEnd, hne] using hex
      refine hne ?_
      rw [← skipBlanks_text hs hfit₁ h, Cursor.skipBlanks]
      simpa [Cursor.onlyBlanks, List.dropWhile_eq_nil_iff] using hblanks
    rw [decodeRun, dif_neg (by simp [hn, hexhausted])]
    split
    · simp_all
    · simp_all [Except.map]

theorem decodeRun_bytes (hsep : ∀ sep ∈ s.separators, PlainSeparator sep)
    (h : s.decodeRun c = .ok items) {b : UInt8} (hb : Bytes.isMark b = true)
    (hne : [b] ∉ s.separators) (hm : b ∈ items.flatMap s.text) : b ∈ c.rest := by
  fun_induction decodeRun s c generalizing items with
  | case1 c hs =>
    obtain rfl := Except.ok.inj h
    simp at hm
  | case2 => cases h
  | case3 c hs item c' hd ih =>
    obtain ⟨rest, hrest, rfl⟩ := map_eq_ok.1 h
    obtain ⟨hsuffix, hmarks⟩ := decode_bytes hsep hd
    rw [List.flatMap_cons, List.mem_append] at hm
    rcases hm with hm | hm
    · exact hmarks b hb hne hm
    · exact hsuffix.subset (ih hrest hm)

end Shape

/-! ## Flat values -/

namespace FlatNode

variable {node : FlatNode} {value : FlatValue}

/-- A value of a plain layout holds no NaN. -/
theorem quiet_eq (hp : node.layout.Plain) (h : node.layout.Holds value) : value.quiet = value := by
  have hscalars {fields : List Field} {item : List Scalar}
      (hfit : item.map (·.prim) = fields.map (·.prim))
      (hreal : ∀ prim ∈ fields.map (·.prim), prim ≠ .f32 ∧ prim ≠ .f64) :
      item.map Scalar.quiet = item := by
    rw [← hfit, List.forall_mem_map] at hreal
    exact (List.map_congr_left fun s hs => Scalar.quiet_of_not_real (hreal s hs)).trans
      (List.map_id' item)
  have hreal := hp.no_reals
  cases hn : node.layout with
  | primitive prim =>
    rw [hn] at h hreal
    cases value with
    | scalar s =>
      obtain rfl : s.prim = prim := h
      rw [FlatValue.quiet, Scalar.quiet_of_not_real (hreal _ List.mem_cons_self)]
    | _ => exact h.elim
  | struct shape =>
    rw [hn] at h hreal
    cases value with
    | struct fields => rw [FlatValue.quiet, hscalars (Shape.fits_iff.1 h) hreal]
    | _ => exact h.elim
  | structs shape =>
    rw [hn] at h hreal
    cases value with
    | structs items =>
      rw [FlatValue.quiet, List.map_congr_left fun item hm =>
        hscalars (Shape.fits_iff.1 (h.2 item hm)) hreal, List.map_id']
    | bytes data => rfl
    | _ => exact h.elim

theorem decodeNext_text (hl : ∀ shape, node.layout ≠ .structs shape) (hp : node.layout.Legible)
    (h : node.layout.Holds value) :
    ∃ c, node.decodeNext (.start (node.layout.text value)) = .ok value.quiet c ∧ c.rest = [] := by
  obtain ⟨hsep, hend⟩ := hp
  cases hn : node.layout with
  | primitive prim =>
    rw [hn] at h
    cases value with
    | scalar s =>
      obtain rfl : s.prim = prim := h
      obtain ⟨c, hread, hc⟩ := @decodeScalar_encodeScalar s (.start (encodeScalar s)) []
        (by simp) (by simp [Cursor.start])
      exact ⟨c, by simp only [decodeNext, hn, Layout.text, Scan.map_apply, hread,
        FlatValue.quiet], hc⟩
    | _ => exact h.elim
  | struct shape =>
    rw [hn] at h hsep hend
    cases value with
    | struct fields =>
      obtain ⟨c, hread, hc⟩ := @Shape.decode_text shape fields (.start (shape.text fields)) [] h
        hsep (numbersEnd_of_dropLast hend) (by simp [Cursor.start])
      exact ⟨c, by simp only [decodeNext, hn, Layout.text, Scan.map_apply, hread,
        FlatValue.quiet], hc⟩
    | _ => exact h.elim
  | structs shape => exact absurd hn (hl shape)

/-- A chunk is read whole if the next value takes all of it. -/
theorem decode_of_decodeNext {chunk : Bytes} {c : Cursor}
    (h : node.decodeNext (.start chunk) = .ok value c) (hc : c.rest = []) :
    node.decode chunk = .ok value := by
  have hend : c.atEnd = true := by simp [Cursor.atEnd, hc]
  cases hn : node.layout with
  | primitive prim =>
    simp only [decodeNext, hn, Scan.map_apply] at h
    cases hread : decodeScalar prim (.start chunk) <;>
      simp_all [decode, Scan.whole, Except.map]
  | struct shape =>
    simp only [decodeNext, hn, Scan.map_apply] at h
    cases hread : shape.decode (.start chunk) <;> simp_all [decode, Scan.whole, Except.map]
  | structs shape => simp [decodeNext, hn, Scan.throw_apply] at h

/-- A value of the form of a legible node is read back from its text. -/
theorem decode_text (hn : node.layout.isHollow = false) (hp : node.layout.Legible)
    (h : node.layout.Holds value) : node.decode (node.layout.text value) = .ok value.quiet := by
  by_cases hl : ∀ shape, node.layout ≠ .structs shape
  · obtain ⟨c, hread, hc⟩ := decodeNext_text hl hp h
    exact decode_of_decodeNext hread hc
  · obtain ⟨shape, hl⟩ := not_forall_not.1 hl
    obtain ⟨hsep, hend⟩ := hp
    rw [hl] at h hn hsep hend
    cases value with
    | structs items =>
      have hrun : shape.decodeRun (.start (items.flatMap shape.text)) =
          .ok (items.map (List.map Scalar.quiet)) :=
        Shape.decodeRun_text hn h.2 hsep hend rfl
      simp [decode, hl, Layout.text, h.1, hrun, Except.map, FlatValue.quiet]
    | bytes data =>
      have hr : shape.isRawByte = true := h
      simp [decode, hl, Layout.text, hr, FlatValue.quiet]
    | _ => exact h.elim

theorem streamed_of_rest_eq_nil (hn : node.layout.isHollow = false) {c : Cursor}
    (h : c.rest = []) : node.streamed c = [] := by
  rw [streamed, dif_neg (by simp [hn])]
  split
  · rfl
  · rename_i hd
    have := length_rest_decodeNext_lt hn hd
    simp [h] at this

/-- The text of one value is read as that value alone. -/
theorem streamed_text (hl : ∀ shape, node.layout ≠ .structs shape)
    (hn : node.layout.isHollow = false) (hp : node.layout.Legible) (h : node.layout.Holds value) :
    node.streamed (.start (node.layout.text value)) = [value.quiet] := by
  obtain ⟨c, hread, hc⟩ := decodeNext_text hl hp h
  rw [streamed, dif_neg (by simp [hn])]
  split
  · simp_all
  · simp_all [streamed_of_rest_eq_nil hn]

/-- The marks in the text of a value that are no separators were in the chunk that it was decoded
from. -/
theorem mem_of_mem_text {chunk : Bytes} (hp : node.layout.Legible)
    (h : node.decode chunk = .ok value) {b : UInt8} (hb : Bytes.isMark b = true)
    (hne : [b] ∉ node.layout.separators) (hm : b ∈ node.layout.text value) : b ∈ chunk := by
  have hsep := hp.marks
  unfold decode at h
  cases hl : node.layout with
  | primitive prim =>
    simp only [hl] at h hm
    obtain ⟨s, hw, rfl⟩ := map_eq_ok.1 h
    obtain ⟨c, hd, -⟩ := Scan.whole_eq_ok hw
    exact (decodeScalar_bytes hd).2 b hb hm
  | struct shape =>
    simp only [hl] at h hm hne
    rw [hl] at hsep
    obtain ⟨fields, hw, rfl⟩ := map_eq_ok.1 h
    obtain ⟨c, hd, -⟩ := Scan.whole_eq_ok hw
    exact (Shape.decode_bytes hsep hd).2 b hb hne hm
  | structs shape =>
    simp only [hl] at h hm hne
    rw [hl] at hsep
    split at h
    · cases h
      exact hm
    · obtain ⟨items, hd, rfl⟩ := map_eq_ok.1 h
      exact Shape.decodeRun_bytes hsep hd hb hne hm

end FlatNode

end RecordStore
