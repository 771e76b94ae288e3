import RecordStore.Proofs.FlatTexts
import RecordStore.Proofs.WellFormedTrees

/-!
# Runs of code units

Each code unit is read from its own bytes whatever follows, and so is each character, by one unit.
So a run of them is read unit by unit and none is shifted. In bytes that were not written as units a
lead byte calls for continuations; those are followed up to the first byte that is none, and only
the end of the input can cut them short.

## Main definitions

* `Unit16.Spells` — bytes that are read as a unit, whatever follows.
* `Unit16.ofChar` — the unit that a character is read as.
* `Unit16.due`, `Unit16.CutShort` — how many continuations are due, and bytes that end before.

## Main statements

* `Unit16.spells_encode`, `Unit16.spells_utf8` — the bytes of units and of characters.
* `Unit16.decode?_eq_none_iff`, `Unit16.decode?_le_four` — when a unit can be read, and from what.
* `decode_unitRun` — texts of units and of characters are read without loss of place.
-/

namespace RecordStore

namespace Unit16

/-! ## Units and characters in bytes -/

/-- The bytes are read as the unit, whatever follows. -/
def Spells (bytes : Bytes) (u : UInt16) : Prop :=
  ∀ rest, decode? (bytes ++ rest) = some (u, bytes.length)

theorem spells_encode (u : UInt16) : Spells (encode u) u := decode?_encode u

/-- The unit that a character is read as. Those that need two units have none of their own. -/
def ofChar (c : Char) : UInt16 := if c.toNat < 0x10000 then UInt16.ofNat c.toNat else replacement

/-- Marker bits in front of a payload are added to it. -/
theorem ofNat_add_eq_or {marker bound n : ℕ}
    (hm : (marker, bound) ∈ [(0x80, 64), (0xc0, 32), (0xe0, 16)]) (h : n < bound) :
    UInt8.ofNat (n + marker) = UInt8.ofNat marker ||| UInt8.ofNat n := by
  simp only [List.mem_cons, List.not_mem_nil, or_false, Prod.mk.injEq] at hm
  rcases hm with ⟨rfl, rfl⟩ | ⟨rfl, rfl⟩ | ⟨rfl, rfl⟩ <;>
    · revert n
      decide

/-- A continuation byte is its payload behind the marker. -/
theorem ofNat_mod_add (n : ℕ) :
    UInt8.ofNat (n % 64 + 0x80) = 0x80 ||| UInt8.ofNat (n % 64) :=
  @ofNat_add_eq_or 0x80 64 _ (by decide) (Nat.mod_lt _ (by decide))

theorem encode_ofNat {c : Char} (h : c.toNat < 0x10000) :
    encode (UInt16.ofNat c.toNat) = String.utf8EncodeChar c := by
  change c.val.toNat < 0x10000 at h
  change encode (UInt16.ofNat c.val.toNat) = _
  unfold String.utf8EncodeChar
  generalize c.val.toNat = n at h
  have hu : (UInt16.ofNat n).toNat = n := by
    rw [UInt16.toNat_ofNat']
    exact Nat.mod_eq_of_lt h
  have hlt (bound : UInt16) : UInt16.ofNat n < bound ↔ n < bound.toNat := by
    rw [UInt16.lt_iff_toNat_lt, hu]
  dsimp only
  -- The sizes of a character are those of a unit, up to the last one.
  split
  · rename_i hn
    rw [encode_of_lt ((hlt 0x80).2 (Nat.lt_succ_of_le hn))]
    congr 1
    apply UInt8.toNat_inj.1
    simp
  rename_i h₁
  have hone : ¬UInt16.ofNat n < 0x80 := fun hn => h₁ (Nat.le_of_lt_succ ((hlt 0x80).1 hn))
  split
  · rename_i h₂
    have htwo : UInt16.ofNat n < 0x800 := (hlt 0x800).2 (Nat.lt_succ_of_le h₂)
    have hhigh : n / 64 % 32 = n / 64 := Nat.mod_eq_of_lt (by omega)
    rw [encode_two hone htwo, hu, hhigh, ofNat_mod_add,
      @ofNat_add_eq_or 0xc0 32 _ (by decide) (by omega)]
    rfl
  rename_i h₂
  have htwo : ¬UInt16.ofNat n < 0x800 := fun hn => h₂ (Nat.le_of_lt_succ ((hlt 0x800).1 hn))
  have hhigh : n / 4096 % 16 = n / 4096 := Nat.mod_eq_of_lt (by omega)
  rw [if_pos (Nat.le_of_lt_succ h), encode_three htwo, hu, hhigh, ofNat_mod_add, ofNat_mod_add,
    @ofNat_add_eq_or 0xe0 16 _ (by decide) (by omega)]
  rfl

theorem lead_four {a : ℕ} (h : a < 8) :
    ¬UInt8.ofNat (a + 0xf0) < 0x80 ∧ ¬UInt8.ofNat (a + 0xf0) < 0xc2 ∧
      ¬UInt8.ofNat (a + 0xf0) < 0xe0 ∧ ¬UInt8.ofNat (a + 0xf0) < 0xf0 ∧
        UInt8.ofNat (a + 0xf0) < 0xf8 := by
  revert a
  decide

/-- A character of four bytes is read as the replacement, with all of its bytes. -/
theorem spells_four {c : Char} (h : ¬c.toNat < 0x10000) :
    Spells (String.utf8EncodeChar c) replacement := by
  intro rest
  have hlow : 0x10000 ≤ c.val.toNat := Nat.not_lt.1 h
  unfold String.utf8EncodeChar
  generalize c.val.toNat = n at hlow
  obtain ⟨h₁, h₂, h₃, h₄, h₅⟩ := @lead_four (n / 262144 % 8) (Nat.mod_lt _ (by decide))
  have hcont (m : ℕ) : isContinuation (UInt8.ofNat (m % 64 + 0x80)) = true := by
    rw [ofNat_mod_add]
    exact (continuation (Nat.mod_lt m (by decide))).2.1
  rw [if_neg (by omega), if_neg (by omega), if_neg (by omega)]
  simp only [List.cons_append, decode?, h₁, h₂, h₃, h₄, h₅, continuations?, hcont, if_true,
    if_false, Option.map_some]
  rfl

/-- Every character is read as one unit. -/
theorem spells_utf8 (c : Char) : Spells (String.utf8EncodeChar c) (ofChar c) := by
  unfold ofChar
  split
  · rename_i h
    rw [← encode_ofNat h]
    exact spells_encode _
  · rename_i h
    exact spells_four h

/-! ## Continuations -/

/-- How many continuations a lead byte calls for. Bytes that lead no sequence call for none. -/
def due (lead : UInt8) : ℕ :=
  if lead < 0xc2 then 0
  else if lead < 0xe0 then 1
  else if lead < 0xf0 then 2
  else if lead < 0xf8 then 3
  else 0

/-- The bytes end where a lead byte or a continuation is expected. -/
def CutShort : Bytes → Prop
  | [] => True
  | lead :: rest => rest.length < due lead ∧ ∀ b ∈ rest, isContinuation b = true

theorem due_le (lead : UInt8) : due lead ≤ 3 := by
  unfold due
  grind

theorem continuations?_eq_none_iff {count : ℕ} {bytes : Bytes} :
    continuations? count bytes = none ↔
      bytes.length < count ∧ ∀ b ∈ bytes, isContinuation b = true := by
  induction count generalizing bytes with
  | zero => simp [continuations?]
  | succ count ih =>
    cases bytes with
    | nil => simp [continuations?]
    | cons b rest =>
      rw [continuations?]
      split
      · simp_all
      · simp_all

theorem continuations?_le_count {count n : ℕ} {bytes : Bytes}
    (h : continuations? count bytes = some n) : n ≤ count := by
  induction count generalizing bytes n with
  | zero =>
    simp only [continuations?, Option.some.injEq] at h
    omega
  | succ count ih =>
    cases bytes with
    | nil => simp [continuations?] at h
    | cons b rest =>
      rw [continuations?] at h
      split at h
      · obtain ⟨m, hm, rfl⟩ := Option.map_eq_some_iff.1 h
        exact Nat.succ_le_succ (ih hm)
      · obtain rfl := Option.some.inj h
        omega

/-- A unit is read from a lead byte and the continuations that are due. -/
theorem length_decode? (lead : UInt8) (rest : Bytes) :
    (decode? (lead :: rest)).map Prod.snd = (continuations? (due lead) rest).map (· + 1) := by
  have h₁ : lead < 0x80 → lead < 0xc2 := fun h => UInt8.lt_trans h (by decide)
  simp only [decode?, due]
  split
  · simp_all [continuations?]
  split
  · simp [continuations?]
  split
  · cases rest with
    | nil => simp [continuations?]
    | cons b rest => simp only [continuations?]; split <;> simp
  split
  · cases rest with
    | nil => simp [continuations?]
    | cons b rest =>
      simp only [continuations?]
      split
      · cases rest with
        | nil => simp [continuations?]
        | cons c rest => simp only [continuations?]; split <;> simp
      · simp
  split
  · simp [Option.map_map, Function.comp_def]
  · simp [continuations?]

/-- No unit is read exactly where the bytes end too early. -/
theorem decode?_eq_none_iff {bytes : Bytes} : decode? bytes = none ↔ CutShort bytes := by
  cases bytes with
  | nil => simp [decode?, CutShort]
  | cons lead rest =>
    rw [← Option.map_eq_none_iff (f := Prod.snd), length_decode?, Option.map_eq_none_iff,
      continuations?_eq_none_iff]
    simp [CutShort]

theorem decode?_le_four {bytes : Bytes} {u : UInt16} {n : ℕ} (h : decode? bytes = some (u, n)) :
    n ≤ 4 := by
  cases bytes with
  | nil => cases h
  | cons lead rest =>
    have hlength := length_decode? lead rest
    rw [h] at hlength
    obtain ⟨m, hm, rfl⟩ := Option.map_eq_some_iff.1 hlength.symm
    have := continuations?_le_count hm
    have := due_le lead
    omega

end Unit16

/-! ## Runs -/

def unitRun : Schema := .flat ⟨⟨0, "u*"⟩, .structs (.lone .utf16)⟩

def unitRow (units : List UInt16) : Value :=
  .flat (.structs (units.map fun u => [.ofInt .utf16 u.toNat]))

theorem nextUnit_eq (c : Cursor) :
    nextUnit c = match Unit16.decode? c.rest with
      | some (u, n) => .ok u (c.advance n)
      | none => .error .unexpectedEnd c.finish := by
  simp only [nextUnit, Scan.bind_apply, Scan.get_apply]
  cases Unit16.decode? c.rest <;> rfl

theorem meetSeparator_nil (blanksSkipped : Bool) (c : Cursor) :
    meetSeparator [] blanksSkipped c = .ok () c := by
  simp [meetSeparator, Scan.bind_apply, Scan.get_apply, Scan.modify_apply, Cursor.advance]

/-- A unit in front is taken with its bytes and nothing else. -/
theorem decode_lone_unit {c : Cursor} {u : UInt16} {bytes rest : Bytes}
    (hs : Unit16.Spells bytes u) (h : c.rest = bytes ++ rest) :
    (Shape.lone .utf16).decode c = .ok [.ofInt .utf16 u.toNat] (c.advance bytes.length) := by
  have hunit : nextUnit c = .ok u (c.advance bytes.length) := by rw [nextUnit_eq, h, hs rest]
  simp [Shape.decode, Shape.lone, decodeFields, decodeScalar, Prim.kind, meetSeparator_nil,
    Scan.bind_apply, Scan.map_apply, hunit]

/-- Bytes of units in a row are read as these units. -/
theorem decodeRun_of_spells {α : Type} {text : α → Bytes} {unit : α → UInt16} {items : List α}
    (hs : ∀ x ∈ items, Unit16.Spells (text x) (unit x)) {c : Cursor}
    (h : c.rest = items.flatMap text) :
    (Shape.lone .utf16).decodeRun c = .ok (items.map fun x => [.ofInt .utf16 (unit x).toNat]) := by
  induction items generalizing c with
  | nil =>
    rw [Shape.decodeRun, dif_pos (by simp_all [Shape.exhausted, Cursor.atEnd])]
    rfl
  | cons x items ih =>
    obtain ⟨hx, hs⟩ := List.forall_mem_cons.1 hs
    rw [List.flatMap_cons] at h
    have hdecode := decode_lone_unit hx h
    have hne : c.rest ≠ [] := by
      have := Shape.length_rest_decode hdecode
      rw [← List.length_pos_iff]
      exact Nat.lt_of_lt_of_le (Nat.succ_pos _) this
    have hnext : (c.advance (text x).length).rest = items.flatMap text := by
      simp [Cursor.advance, h]
    have hmore : ¬((Shape.lone .utf16).isHollow || (Shape.lone .utf16).exhausted c) := by
      simp [Shape.isHollow, Shape.exhausted, Shape.lone, Shape.skipsBlanks, Prim.skipsBlanks,
        Prim.kind, Cursor.atEnd, hne]
    rw [Shape.decodeRun, dif_neg hmore]
    split
    · simp_all
    · simp_all [Except.map]

/-- Bytes of units in a row are the value of a run of them. -/
theorem decode_unitRun_of_spells {α : Type} {text : α → Bytes} {unit : α → UInt16} {items : List α}
    (hs : ∀ x, Unit16.Spells (text x) (unit x)) :
    decode unitRun (items.flatMap text) = .ok (unitRow (items.map unit)) := by
  have hrun : (Shape.lone .utf16).decodeRun (.start (items.flatMap text)) = _ :=
    decodeRun_of_spells (fun x _ => hs x) rfl
  have hraw : (Shape.lone .utf16).isRawByte = false := rfl
  simp [decode, unitRun, FlatNode.decode, hraw, hrun, unitRow, Except.map, Function.comp_def]

/-- Texts of code units, surrogates among them, are read as these units, and texts of characters as
one unit each, which is the replacement if the character needs two. In any other bytes a unit can be
read as well, from one to four of them, unless they end where a lead byte or a continuation is
expected. -/
theorem decode_unitRun :
    parse "u*" = .ok unitRun ∧
    (∀ units : List UInt16,
      decode unitRun (units.flatMap Unit16.encode) = .ok (unitRow units)) ∧
    (∀ chars : List Char,
      decode unitRun (Bytes.ofChars chars) = .ok (unitRow (chars.map Unit16.ofChar))) ∧
    ∀ c : Cursor,
      ((∃ fault c', nextUnit c = .error fault c') ↔ Unit16.CutShort c.rest) ∧
        ∀ u c', nextUnit c = .ok u c' → ∃ n, 1 ≤ n ∧ n ≤ 4 ∧ n ≤ c.rest.length ∧
          c' = ⟨c.position + n, c.rest.drop n⟩ := by
  refine ⟨by decide +kernel, fun units => ?_, fun chars => ?_, fun c => ?_⟩
  · conv_rhs => rw [← List.map_id' units]
    exact decode_unitRun_of_spells Unit16.spells_encode
  · exact decode_unitRun_of_spells Unit16.spells_utf8
  · rw [nextUnit_eq, ← Unit16.decode?_eq_none_iff]
    cases hd : Unit16.decode? c.rest with
    | none => simp
    | some read =>
      obtain ⟨u, n⟩ := read
      obtain ⟨hpos, hle⟩ := Unit16.decode?_bounds hd
      refine ⟨by simp, ?_⟩
      rintro _ _ ⟨⟩
      exact ⟨n, hpos, Unit16.decode?_le_four hd, hle, by simp [Cursor.advance, hle]⟩

/-- A lead byte takes the byte that breaks its sequence, and no more; a character of four bytes
leaves the next one alone. -/
theorem decode_unitRun_of_broken_sample :
    decode unitRun (Bytes.ofChars ['😀', 'x']) = .ok (unitRow [0xfffd, 0x78]) ∧
    (∃ fault c', nextUnit ⟨0, [0xf0, 0x9f]⟩ = .error fault c') ∧
    nextUnit ⟨0, [0xf0, 0x61, 0x62]⟩ = .ok 0xfffd ⟨2, [0x62]⟩ ∧
    ∃ n, 1 ≤ n ∧ n ≤ 4 ∧ n ≤ 3 ∧ (⟨2, [0x62]⟩ : Cursor) = ⟨0 + n, [0xf0, 0x61, 0x62].drop n⟩ := by
  have hunits : ['😀', 'x'].map Unit16.ofChar = [0xfffd, 0x78] := by decide
  have hread : nextUnit ⟨0, [0xf0, 0x61, 0x62]⟩ = .ok 0xfffd ⟨2, [0x62]⟩ := by rfl
  refine ⟨hunits ▸ decode_unitRun.2.2.1 ['😀', 'x'], ?_, hread, ?_⟩
  · exact (decode_unitRun.2.2.2 ⟨0, [0xf0, 0x9f]⟩).1.2
      ⟨by decide, List.forall_mem_singleton.2 (by decide)⟩
  · exact (decode_unitRun.2.2.2 ⟨0, [0xf0, 0x61, 0x62]⟩).2 _ _ hread

end RecordStore
