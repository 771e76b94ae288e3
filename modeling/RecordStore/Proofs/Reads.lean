import RecordStore.Proofs.Offsets
import RecordStore.Store.Container

/-!
# Reading back what was written

A reader reads a byte string as a value if, whatever follows, it takes exactly these bytes. Such
readers compose like the byte strings they read.

## Main definitions

* `Take.Reads` — a reader takes exactly a byte string and gives a value.

## Main statements

* `Take.Reads.bind` — readers in turn read byte strings in a row.
* `Take.Reads.number`, `Take.Reads.table` — written numbers and tables are read back.
* `Container.reads_takeSection` — a written section is read back.
-/

namespace RecordStore

/-! ## Little-endian numbers -/

namespace Bytes

theorem toNat_ofNat_of_lt {width n : Nat} (h : n < 256 ^ width) : (ofNat width n).toNat = n := by
  rw [toNat_ofNat, Nat.pow_eq, Nat.mod_eq_of_lt h]

theorem words_ofNat_append {n : Nat} (h : n < wordLimit) (rest : Bytes) :
    words (ofNat 8 n ++ rest) = n :: words rest := by
  have hn : (ofNat 8 n).toNat = n := toNat_ofNat_of_lt h
  rw [show ofNat 8 n ++ rest = UInt8.ofNat (n % 256) :: UInt8.ofNat (n / 256 % 256) ::
    UInt8.ofNat (n / 256 / 256 % 256) :: UInt8.ofNat (n / 256 / 256 / 256 % 256) ::
    UInt8.ofNat (n / 256 / 256 / 256 / 256 % 256) ::
    UInt8.ofNat (n / 256 / 256 / 256 / 256 / 256 % 256) ::
    UInt8.ofNat (n / 256 / 256 / 256 / 256 / 256 / 256 % 256) ::
    UInt8.ofNat (n / 256 / 256 / 256 / 256 / 256 / 256 / 256 % 256) :: rest from rfl, words]
  exact congrArg (· :: words rest) hn

/-- The eight-byte numbers of a table are read back. -/
theorem words_numbers {ns : List Nat} (h : ∀ n ∈ ns, n < wordLimit) :
    words (Section.numbers ns) = ns := by
  induction ns with
  | nil => rfl
  | cons n ns ih =>
    rw [Section.numbers, List.flatMap_cons, words_ofNat_append (h n (by simp)), ← Section.numbers,
      ih fun m hm => h m (List.mem_cons_of_mem _ hm)]

end Bytes

theorem Section.length_numbers (ns : List Nat) : (Section.numbers ns).length = 8 * ns.length := by
  induction ns with
  | nil => rfl
  | cons n ns ih =>
    rw [Section.numbers, List.flatMap_cons, List.length_append, ← Section.numbers, ih,
      Bytes.length_ofNat, List.length_cons]
    omega

/-! ## Readers -/

namespace Take

variable {α β : Type}

theorem bind_apply (read : Take α) (next : α → Take β) (c : Cursor) :
    (read >>= next) c =
      match read c with
      | .ok (a, c) => next a c
      | .error fault => .error fault := by
  show Except.bind (read c) (fun ac => next ac.1 ac.2) = _
  cases read c <;> rfl

theorem pure_apply (a : α) (c : Cursor) : (pure a : Take α) c = .ok (a, c) := rfl

theorem bytes_apply (n : Nat) (c : Cursor) :
    Take.bytes n c =
      if (c.rest.take n).length < n then .error (.truncated c.position)
      else .ok (c.rest.take n, ⟨c.position + n, c.rest.drop n⟩) := by
  show (do
    if (c.rest.take n).length < n then throw (.truncated c.position)
    set (⟨c.position + n, c.rest.drop n⟩ : Cursor)
    return c.rest.take n : Take Bytes) c = _
  split <;> rfl

theorem bytes_eq_error {n : Nat} {c : Cursor} (h : c.rest.length < n) :
    Take.bytes n c = .error (.truncated c.position) := by
  rw [bytes_apply, if_pos (Nat.lt_of_le_of_lt (List.length_take_le' ..) h)]

/-- Reading takes exactly the bytes, whatever follows, and gives the value. -/
def Reads (read : Take α) (bytes : Bytes) (a : α) : Prop :=
  ∀ position rest, read ⟨position, bytes ++ rest⟩ = .ok (a, ⟨position + bytes.length, rest⟩)

namespace Reads

theorem pure (a : α) : Reads (pure a) [] a := fun _ _ => rfl

/-- What is read next is read behind the bytes. -/
theorem bind_eq {read : Take α} {front : Bytes} {a : α} (h : Reads read front a)
    (next : α → Take β) (position : Nat) (rest : Bytes) :
    (read >>= next) ⟨position, front ++ rest⟩ = next a ⟨position + front.length, rest⟩ := by
  rw [bind_apply, h]

theorem bind {read : Take α} {next : α → Take β} {front back : Bytes} {a : α} {b : β}
    (h : Reads read front a) (hn : Reads (next a) back b) :
    Reads (read >>= next) (front ++ back) b := by
  intro position rest
  rw [List.append_assoc, h.bind_eq, hn, List.length_append, Nat.add_assoc]

theorem bind_nil {read : Take α} {next : α → Take β} {bytes : Bytes} {a : α} {b : β}
    (h : Reads read [] a) (hn : Reads (next a) bytes b) : Reads (read >>= next) bytes b :=
  h.bind hn

theorem bind_pure {read : Take α} {next : α → Take β} {bytes : Bytes} {a : α} {b : β}
    (h : Reads read bytes a) (hn : Reads (next a) [] b) : Reads (read >>= next) bytes b := by
  simpa using h.bind hn

theorem map {read : Take α} {bytes : Bytes} {a : α} (f : α → β) (h : Reads read bytes a) :
    Reads (f <$> read) bytes (f a) := by
  rw [map_eq_pure_bind]
  exact h.bind_pure (pure (f a))

theorem ofExcept {outcome : Except ReadError α} {a : α} (h : outcome = .ok a) :
    Reads (liftM outcome) [] a := by
  subst h
  intro _ _
  exact rfl

theorem bytes {n : Nat} {front : Bytes} (h : front.length = n) :
    Reads (Take.bytes n) front front := by
  intro position rest
  rw [bytes_apply, List.take_left' h, List.drop_left' h, h, if_neg (Nat.lt_irrefl _)]

/-- Of a number too large for its width, the lowest digits are read back. -/
theorem number_mod (width n : Nat) :
    Reads (Take.number width) (Bytes.ofNat width n) (n % 256 ^ width) := by
  have := (bytes (Bytes.length_ofNat width n)).map Bytes.toNat
  rwa [Bytes.toNat_ofNat] at this

theorem number {width n : Nat} (h : n < 256 ^ width) :
    Reads (Take.number width) (Bytes.ofNat width n) n := by
  have := number_mod width n
  rwa [Nat.mod_eq_of_lt h] at this

theorem numbers {count : Nat} {ns : List Nat} (hc : ns.length = count)
    (h : ∀ n ∈ ns, n < wordLimit) :
    Reads (Take.numbers count) (Section.numbers ns) ns.toArray := by
  have := (bytes (show (Section.numbers ns).length = 8 * count by
    rw [Section.length_numbers, hc])).map fun bytes => (Bytes.words bytes).toArray
  rwa [Bytes.words_numbers h] at this

theorem table {items : Nat} {lengths : List Nat} (hc : lengths.length = items)
    (h : lengths.sum < wordLimit) :
    Reads (Take.table items) (Section.numbers (Section.offsets lengths))
      (Section.offsets lengths).toArray :=
  numbers (by simp [hc]) fun _ hn => Nat.lt_of_le_of_lt (Section.le_sum_of_mem_offsets hn) h

/-- A loop of steps that take nothing. -/
theorem forIn_nil {xs : List α} {step : α → PUnit → Take (ForInStep PUnit)}
    (h : ∀ x ∈ xs, Reads (step x ⟨⟩) [] (.yield ⟨⟩)) : Reads (forIn xs ⟨⟩ step) [] ⟨⟩ := by
  induction xs with
  | nil => exact .pure _
  | cons x xs ih =>
    rw [List.forIn_cons]
    exact (h x (by simp)).bind_nil (ih fun y hy => h y (List.mem_cons_of_mem _ hy))

theorem start {read : Take α} {bytes : Bytes} {a : α} (h : Reads read bytes a) :
    read (.start bytes) = .ok (a, ⟨bytes.length, []⟩) := by
  simpa [Cursor.start] using h 0 []

end Reads

end Take

/-! ## Sections -/

namespace Container

open Take (Reads)

theorem reads_takeOffsets {items : Nat} {lengths : List Nat} (ordinal : Nat)
    (cause : Corruption) (hc : lengths.length = items) (h : lengths.sum < wordLimit) :
    Reads (takeOffsets items ordinal cause) (Section.numbers (Section.offsets lengths))
      ((Section.offsets lengths).toArray, lengths.sum) := by
  have hb : (Section.offsets lengths).toArray.back?.getD 0 = lengths.sum := by
    rw [← Array.getLast?_toList, Section.getLast?_offsets]
    rfl
  refine (Reads.table hc h).bind_pure ?_
  rw [hb]
  refine Reads.bind_nil (a := ()) ?_ (.pure _)
  apply Reads.ofExcept
  rw [isOffsetTable_offsets]
  rfl

/-- A written section is read back. -/
theorem reads_takeSection {ordinal : Nat} {args : List String} {body : Bytes} (tag : Section.Tag)
    (ho : ordinal < 2 ^ 32) (ha : (Bytes.ofText (",".intercalate args)).length < 2 ^ 16)
    (hb : body.length < wordLimit) :
    Reads (takeSection ordinal) (Section.write tag ordinal args body)
      ⟨tag.toNat, ",".intercalate args, body⟩ := by
  have ht : tag.toNat < 256 ^ 1 := by cases tag <;> decide
  simp only [Section.write, List.append_assoc]
  refine (Reads.number ht).bind ((@Reads.number 4 _ ho).bind ?_)
  simp only [ne_eq, not_true_eq_false, if_false]
  refine (@Reads.number 2 _ ha).bind ?_
  refine (Reads.bytes rfl).bind ?_
  simp only [Utf8.read?_ofText]
  refine Reads.bind_nil (.pure _) ((@Reads.number 8 _ hb).bind ?_)
  exact (Reads.bytes rfl).bind_pure (.pure _)

/-- The body of a section is read up to its end. -/
theorem readBody_eq_ok {α : Type} {read : Take α} {raw : RawSection} {view : α}
    {tag : Section.Tag} (ordinal : Nat) (ht : raw.tag = tag.toNat)
    (h : Reads read raw.body view) : readBody ordinal tag raw read = .ok view := by
  simp only [readBody, ht, h.start, ne_eq, not_true_eq_false, if_false]
  rfl

end Container

end RecordStore
