import Mathlib.Data.List.DropRight
import RecordStore.Proofs.FlatTexts

/-!
# Chunks of one value

A number is not read from blanks, and a chunk that is read whole leaves nothing but blanks behind a
number. So it is one value also if values are read from it as long as they follow each other.

## Main statements

* `decodeScalar_skipBlanks` — a number is read as if the blanks before it were not there.
* `FlatNode.streamed_of_decode` — a chunk that is read whole.
-/

namespace RecordStore

/-! ## Blanks -/

namespace Cursor

@[simp] theorem skipBlanks_skipBlanks (c : Cursor) : c.skipBlanks.skipBlanks = c.skipBlanks := by
  obtain ⟨blanks, -, -, hstop, -⟩ := c.exists_blanks
  exact skipBlanks_of_append (List.nil_append _).symm (by simp) hstop

theorem rest_skipBlanks_of_onlyBlanks {c : Cursor} (h : c.onlyBlanks = true) :
    c.skipBlanks.rest = [] :=
  List.dropWhile_eq_nil_iff.2 (List.all_eq_true.1 h)

theorem onlyBlanks_of_suffix {c c' : Cursor} (h : c.onlyBlanks = true) (hs : c'.rest <:+ c.rest) :
    c'.onlyBlanks = true :=
  List.all_eq_true.2 fun b hb => List.all_eq_true.1 h b (hs.subset hb)

end Cursor

/-- A number is read as if the blanks before it were not there. -/
theorem decodeScalar_skipBlanks {prim : Prim} (h : prim.skipsBlanks = true) (c : Cursor) :
    decodeScalar prim c.skipBlanks = decodeScalar prim c := by
  cases hk : prim.kind with
  | raw => simp [Prim.skipsBlanks, hk] at h
  | unit => simp [Prim.skipsBlanks, hk] at h
  | integer low high =>
    simp [decodeScalar, hk, readInteger, Scan.bind_apply, Scan.modify_apply]
  | real format precision =>
    simp [decodeScalar, hk, readReal, readRealText, Scan.bind_apply, Scan.modify_apply]

theorem decodeScalar_ne_ok {prim : Prim} (h : prim.skipsBlanks = true) {c c' : Cursor}
    (hc : c.onlyBlanks = true) (s : Scalar) : decodeScalar prim c ≠ .ok s c' := by
  intro hread
  rw [← decodeScalar_skipBlanks h] at hread
  have := length_rest_decodeScalar_lt hread
  simp [Cursor.rest_skipBlanks_of_onlyBlanks hc] at this

theorem decodeFields_ne_ok {blanksSkipped : Bool} {fields : List Field} {last : Field}
    (hl : fields.getLast? = some last) (h : last.prim.skipsBlanks = true) {c c' : Cursor}
    (hc : c.onlyBlanks = true) (scalars : List Scalar) :
    decodeFields blanksSkipped fields c ≠ .ok scalars c' := by
  induction fields generalizing c c' scalars with
  | nil => cases hl
  | cons field fields ih =>
    intro hread
    simp only [decodeFields, Scan.bind_eq_ok] at hread
    obtain ⟨s, c₁, hscalar, _, c₂, hmeet, scalars, c₃, hfields, -⟩ := hread
    cases fields with
    | nil =>
      obtain rfl := Option.some.inj hl
      exact decodeScalar_ne_ok h hc s hscalar
    | cons next fields =>
      rw [List.getLast?_cons_cons] at hl
      have hsuffix := (meetSeparator_suffix hmeet).trans (decodeScalar_bytes hscalar).1
      exact ih hl (Cursor.onlyBlanks_of_suffix hc hsuffix) scalars hfields

theorem Shape.decode_ne_ok {s : Shape} (h : s.endsInNumber = true) {c c' : Cursor}
    (hc : c.onlyBlanks = true) (item : List Scalar) : s.decode c ≠ .ok item c' := by
  intro hread
  obtain ⟨_, c₁, hmeet, hfields⟩ := Scan.bind_eq_ok.1 hread
  have hc₁ := Cursor.onlyBlanks_of_suffix hc (meetSeparator_suffix hmeet)
  cases hl : s.fields.getLast? with
  | none => simp [endsInNumber, hl] at h
  | some last => exact decodeFields_ne_ok hl (by simpa [endsInNumber, hl] using h) hc₁ item hfields

/-! ## Chunks that are read whole -/

/-- Behind a chunk that is read whole nothing more is read, if a read takes bytes and, where blanks
are allowed, does not take blanks alone. -/
theorem Scan.whole_stops {α : Type} {read : Scan α} {blanksAllowed : Bool}
    (hbytes : ∀ c a c', read c = .ok a c' → c'.rest.length < c.rest.length)
    (hblanks : blanksAllowed = true → ∀ c, c.onlyBlanks = true → ∀ a c', read c ≠ .ok a c')
    {chunk : Bytes} {a : α} (h : whole read blanksAllowed chunk = .ok a) :
    ∃ c, read (.start chunk) = .ok a c ∧ ∀ next c', read c ≠ .ok next c' := by
  obtain ⟨c, hread, hleft⟩ := whole_eq_ok h
  refine ⟨c, hread, fun next c' hnext => ?_⟩
  rcases Bool.or_eq_true_iff.1 hleft with hend | hleft
  · have := hbytes c next c' hnext
    simp [List.isEmpty_iff.1 hend] at this
  · obtain ⟨hallowed, honly⟩ := Bool.and_eq_true_iff.1 hleft
    exact hblanks hallowed c honly next c' hnext

theorem Scan.map_ne_ok {α β : Type} {read : Scan α} {c : Cursor}
    (h : ∀ a c', read c ≠ .ok a c') (f : α → β) (b : β) (c' : Cursor) :
    (f <$> read) c ≠ .ok b c' := by
  rw [map_apply]
  cases hread : read c with
  | error => exact nofun
  | ok a c₁ => exact absurd hread (h a c₁)

namespace FlatNode

variable {node : FlatNode} {value : FlatValue}

/-- A chunk that is read whole is the next value, and there is none behind it. -/
theorem decodeNext_of_decode (hl : ∀ shape, node.layout ≠ .structs shape)
    (hn : node.layout.isHollow = false) {chunk : Bytes} (h : node.decode chunk = .ok value) :
    ∃ c, node.decodeNext (.start chunk) = .ok value c ∧
      ∀ next c', node.decodeNext c ≠ .ok next c' := by
  cases hlayout : node.layout with
  | structs shape => exact absurd hlayout (hl shape)
  | primitive prim =>
    simp only [decode, decodeNext, hlayout] at h ⊢
    obtain ⟨s, hwhole, rfl⟩ := map_eq_ok.1 h
    obtain ⟨c, hread, hstop⟩ := Scan.whole_stops
      (fun c s c' hs => length_rest_decodeScalar_lt hs)
      (fun hp c hc s c' => decodeScalar_ne_ok hp hc s) hwhole
    exact ⟨c, by rw [Scan.map_apply, hread], Scan.map_ne_ok hstop _⟩
  | struct shape =>
    have hfields : 0 < shape.fields.length := by
      simpa [hlayout, Layout.isHollow, Shape.isHollow, List.length_pos_iff] using hn
    simp only [decode, decodeNext, hlayout] at h ⊢
    obtain ⟨item, hwhole, rfl⟩ := map_eq_ok.1 h
    obtain ⟨c, hread, hstop⟩ := Scan.whole_stops
      (fun c item c' hitem => by have := Shape.length_rest_decode hitem; omega)
      (fun hs c hc item c' => Shape.decode_ne_ok hs hc item) hwhole
    exact ⟨c, by rw [Scan.map_apply, hread], Scan.map_ne_ok hstop _⟩

/-- A chunk that is read whole is its one value also without a delimiter. -/
theorem streamed_of_decode (hl : ∀ shape, node.layout ≠ .structs shape)
    (hn : node.layout.isHollow = false) {chunk : Bytes} (h : node.decode chunk = .ok value) :
    node.streamed (.start chunk) = [value] := by
  obtain ⟨c, hread, hnone⟩ := decodeNext_of_decode hl hn h
  have hrest : node.streamed c = [] := by
    rw [streamed, dif_neg (by simp [hn])]
    split
    · rfl
    · exact absurd ‹_› (hnone _ _)
  rw [streamed, dif_neg (by simp [hn])]
  split <;> simp_all

example : (⟨⟨0, "l"⟩, .primitive .i32⟩ : FlatNode).streamed (.start (Bytes.ofText "5 ")) =
    [.scalar ⟨.i32, 5⟩] := by decide +kernel

end FlatNode

end RecordStore
