import RecordStore.Proofs.UnescapedReadings

/-!
# Wide shapes

Numbers of eight bytes in a row, as many as one likes. A format of 2 ^ 29 of them is accepted, but
its values take 2 ^ 32 bytes, one more than a width of 32 bits can say.

## Main definitions

* `numbersText`, `numbersNode` — a format of numbers, and what it is read as.

## Main statements

* `parse_numbersText` — the format is accepted.
* `not_widthsFit_numbers` — the width of many numbers does not fit.
-/

namespace RecordStore

open Format (WeakText FieldText FlatDerivation)

variable (sep : WeakText) {count : ℕ}

def numbersText (count : ℕ) : String :=
  String.ofList (List.replicate count (Prim.i64.code :: sep.chars)).flatten

def numbersNode (count : ℕ) : FlatNode :=
  ⟨⟨0, numbersText sep count⟩, .struct ⟨[], List.replicate count ⟨.i64, sep.bytes⟩⟩⟩

theorem length_numbersText :
    (Bytes.ofText (numbersText sep count)).length = count * (sep.bytes.length + 1) := by
  have hcode : (String.utf8EncodeChar Prim.i64.code).length = 1 := by decide
  rw [Bytes.ofText, numbersText, String.toList_ofList, Bytes.ofChars]
  induction count with
  | zero => simp
  | succ count ih =>
    rw [List.replicate_succ, List.flatten_cons, List.flatMap_append, List.length_append, ih,
      List.flatMap_cons, List.length_append, hcode, Nat.succ_mul, WeakText.bytes, Bytes.ofChars]
    omega

theorem parseFlat?_numbersText (h : 2 ≤ count) :
    Format.parseFlat? (numbersText sep count).toList 0 = some (.ok (numbersNode sep count)) := by
  have hne : List.replicate count (⟨.i64, sep⟩ : FieldText) ≠ [] := by
    rw [ne_eq, List.replicate_eq_nil_iff]
    omega
  have hread := FlatDerivation.parseFlat?_text ⟨.empty, _, hne, false⟩ 0
  have htext : FlatDerivation.text ⟨.empty, _, hne, false⟩ = (numbersText sep count).toList := by
    simp [FlatDerivation.text, FlatDerivation.body, numbersText, WeakText.empty, FieldText.chars,
      List.flatMap_def]
  have hlayout :
      FlatDerivation.layout ⟨.empty, _, hne, false⟩ = (numbersNode sep count).layout := by
    obtain ⟨more, rfl⟩ := Nat.exists_eq_add_of_le' h
    simp [FlatDerivation.layout, FlatDerivation.shape, numbersNode, WeakText.empty,
      WeakText.bytes, FieldText.field, Bytes.ofChars, List.replicate_succ]
  rw [← htext, hread, FlatDerivation.node, hlayout, htext, String.ofList_toList]
  rfl

/-- A format of numbers is accepted, however many they are. -/
theorem parse_numbersText (h : 2 ≤ count) :
    parse (numbersText sep count) = .ok (.flat (numbersNode sep count)) := by
  refine parse_eq_ok.2 ⟨?_, ?_⟩
  · rw [Format.parseAt_of_flat (parseFlat?_numbersText sep h)]
    rfl
  · simp [Schema.collision?, Schema.collisionIn?, Schema.ownCollision?]

theorem width_numbers : (numbersNode sep count).layout.width = 8 * count := by
  have hwidth : Prim.i64.width = 8 := rfl
  simp only [numbersNode, Layout.width, Shape.width]
  induction count with
  | zero => rfl
  | succ count ih =>
    rw [List.replicate_succ, List.foldr_cons, ih, hwidth]
    omega

theorem not_widthsFit_numbers (h : 2 ^ 29 ≤ count) :
    ¬(Schema.flat (numbersNode sep count)).WidthsFit := by
  rw [Schema.WidthsFit, width_numbers]
  omega

theorem argsFit_numbers : (Schema.flat (numbersNode sep count)).ArgsFit :=
  List.forall_mem_singleton.2 (Nat.zero_le _)

end RecordStore
