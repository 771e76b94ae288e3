import RecordStore.Proofs.Reads
import RecordStore.Proofs.SoundViews

/-!
# Sections of any bytes

Whatever the bytes of a section are, taking it apart reports an error or gives a view whose tables
passed their checks. Neither the checks nor the reading of the tables fault.

## Main definitions

* `Faultless`, `Ensures`, `Take.Ensures` — outcomes that are no faults.

## Main statements

* `Take.Ensures.bind`, `Take.Ensures.forIn` — readers in turn.
* `Container.exists_checkBuckets` — what the check of a bucket table establishes.
* `Container.ensures_takeFlat`, `Container.ensures_takeRagged`, `Container.ensures_takeShape`,
  `Container.ensures_takeKeyed` — the bodies give sound views.
-/

namespace RecordStore

variable {α β : Type}

/-! ## Outcomes without faults -/

/-- An outcome that is a value or an error that the reader reports. -/
def Faultless (outcome : Except ReadError α) : Prop := ∀ fault, outcome ≠ .error (.access fault)

def Ensures (P : α → Prop) : Except ReadError α → Prop
  | .ok a => P a
  | .error e => ∀ fault, e ≠ .access fault

theorem ensures_iff {P : α → Prop} {outcome : Except ReadError α} :
    Ensures P outcome ↔ Faultless outcome ∧ ∀ a, outcome = .ok a → P a := by
  cases outcome <;> simp [Ensures, Faultless]

namespace Ensures

variable {P : α → Prop} {Q : β → Prop}

theorem bind {outcome : Except ReadError α} {next : α → Except ReadError β}
    (h : Ensures P outcome) (hn : ∀ a, P a → Ensures Q (next a)) :
    Ensures Q (outcome >>= next) := by
  cases outcome with
  | error e => exact h
  | ok a => exact hn a h

theorem imp {P' : α → Prop} {outcome : Except ReadError α} (h : Ensures P outcome)
    (hp : ∀ a, P a → P' a) : Ensures P' outcome := by
  cases outcome with
  | error e => exact h
  | ok a => exact hp a h

theorem map {outcome : Except ReadError α} {f : α → β} (h : Ensures (fun a => Q (f a)) outcome) :
    Ensures Q (f <$> outcome) := by
  cases outcome with
  | error e => exact h
  | ok a => exact h

theorem require {condition : Bool} (ordinal : Nat) (cause : Corruption) :
    Ensures (fun _ => condition = true) (Container.require condition ordinal cause) := by
  cases condition with
  | true => exact rfl
  | false => simp [Container.require, Ensures]

theorem ofDecode (outcome : Except DecodeError α) :
    Ensures (fun _ => True) (outcome.mapError .decode) := by
  cases outcome <;> simp [Except.mapError, Ensures]

theorem ofChecked {outcome : Checked α} {a : α} (h : outcome = .ok a) :
    Ensures (fun b => b = a) (outcome.mapError .access) := by
  subst h
  exact rfl

theorem mapM {f : α → Except ReadError β} {xs : List α} (h : ∀ x ∈ xs, Ensures Q (f x)) :
    Ensures (fun ys => ∀ y ∈ ys, Q y) (xs.mapM f) := by
  induction xs with
  | nil => exact fun y hy => absurd hy List.not_mem_nil
  | cons x xs ih =>
    rw [List.mapM_cons]
    obtain ⟨hx, h⟩ := List.forall_mem_cons.1 h
    exact hx.bind fun y hy => (ih h).bind fun ys hys => List.forall_mem_cons.2 ⟨hy, hys⟩

end Ensures

namespace Take

def Ensures (P : α → Prop) (read : Take α) : Prop :=
  ∀ c, RecordStore.Ensures (fun taken => P taken.1) (read c)

namespace Ensures

variable {P : α → Prop} {Q : β → Prop}

theorem bind {read : Take α} {next : α → Take β} (h : Ensures P read)
    (hn : ∀ a, P a → Ensures Q (next a)) : Ensures Q (read >>= next) := by
  intro c
  rw [bind_apply]
  have hread := h c
  cases hr : read c with
  | error e =>
    rw [hr] at hread
    exact hread
  | ok taken =>
    rw [hr] at hread
    exact hn taken.1 hread taken.2

theorem pure {a : α} (h : P a) : Ensures P (pure a) := fun _ => h

theorem map {read : Take α} {f : α → β} (h : Ensures (fun a => Q (f a)) read) :
    Ensures Q (f <$> read) := by
  rw [map_eq_pure_bind]
  exact h.bind fun a ha => pure ha

theorem throw {e : ReadError} (h : ∀ fault, e ≠ .access fault) :
    Ensures P (throw e : Take α) := fun _ => h

theorem ofExcept {outcome : Except ReadError α} (h : RecordStore.Ensures P outcome) :
    Ensures P (liftM outcome : Take α) := by
  intro c
  cases outcome with
  | error e => exact h
  | ok a => exact h

/-- A loop whose steps each establish something of their element. -/
theorem forIn {R : α → Prop} {xs : List α} {step : α → PUnit → Take (ForInStep PUnit)}
    (h : ∀ x ∈ xs, Ensures (fun next => next = .yield ⟨⟩ ∧ R x) (step x ⟨⟩)) :
    Ensures (fun _ => ∀ x ∈ xs, R x) (forIn xs ⟨⟩ step) := by
  induction xs with
  | nil => exact pure fun x hx => absurd hx List.not_mem_nil
  | cons x xs ih =>
    rw [List.forIn_cons]
    obtain ⟨hx, h⟩ := List.forall_mem_cons.1 h
    refine hx.bind fun next ⟨hnext, hr⟩ => ?_
    subst hnext
    exact fun c => (ih h c).imp fun _ hxs => List.forall_mem_cons.2 ⟨hr, hxs⟩

theorem bytes (n : Nat) : Ensures (fun taken => taken.length = n) (Take.bytes n) := by
  intro c
  rw [bytes_apply]
  split
  · exact fun fault h => by cases h
  · show (c.rest.take n).length = n
    have := List.length_take_le n c.rest
    omega

theorem number (width : Nat) : Ensures (fun n => n < 256 ^ width) (Take.number width) := by
  refine (bytes width).bind fun taken hlength => pure ?_
  have hlt := Bytes.toNat_lt taken
  rwa [hlength] at hlt

end Ensures

end Take

namespace Bytes

theorem toNat_lt_wordLimit {bytes : Bytes} (h : bytes.length ≤ 8) : bytes.toNat < wordLimit :=
  (toNat_lt bytes).trans_le (Nat.pow_le_pow_right (by decide) h)

theorem lt_of_mem_words {bytes : Bytes} {n : Nat} (h : n ∈ words bytes) : n < wordLimit := by
  fun_induction words bytes with
  | case1 a b c d e f g h' rest ih =>
    rcases List.mem_cons.1 h with rfl | h
    · exact toNat_lt_wordLimit (by simp)
    · exact ih h
  | case2 => exact absurd h List.not_mem_nil
  | case3 bytes hlong hne =>
    obtain rfl := List.mem_singleton.1 h
    refine toNat_lt_wordLimit ?_
    match bytes with
    | [] | [_] | [_, _] | [_, _, _] | [_, _, _, _] | [_, _, _, _, _] | [_, _, _, _, _, _]
    | [_, _, _, _, _, _, _] => simp
    | a :: b :: c :: d :: e :: f :: g :: h :: rest =>
      exact absurd rfl (hlong a b c d e f g h rest)

theorem length_words {count : Nat} {bytes : Bytes} (h : bytes.length = 8 * count) :
    (words bytes).length = count := by
  fun_induction words bytes generalizing count with
  | case1 a b c d e f g h' rest ih =>
    simp only [List.length_cons] at h ⊢
    have hrest : rest.length = 8 * (count - 1) := by omega
    rw [ih hrest]
    omega
  | case2 =>
    simp only [List.length_nil] at h ⊢
    omega
  | case3 bytes hlong hne =>
    match bytes with
    | [] => exact absurd rfl hne
    | [_] | [_, _] | [_, _, _] | [_, _, _, _] | [_, _, _, _, _] | [_, _, _, _, _, _]
    | [_, _, _, _, _, _, _] => simp only [List.length_cons, List.length_nil] at h; omega
    | a :: b :: c :: d :: e :: f :: g :: h :: rest =>
      exact absurd rfl (hlong a b c d e f g h rest)

end Bytes

theorem Take.Ensures.numbers (count : Nat) :
    Take.Ensures (fun table => table.size = count ∧ ∀ n ∈ table, n < wordLimit)
      (Take.numbers count) := by
  refine (bytes (8 * count)).bind fun taken hlength => pure ⟨?_, fun n hn => ?_⟩
  · rw [List.size_toArray, Bytes.length_words hlength]
  · exact Bytes.lt_of_mem_words (List.mem_toArray.1 hn)

namespace Container

open Take

/-! ## Opening sections -/

theorem ensures_takeOffsets (items ordinal : Nat) (cause : Corruption) :
    Take.Ensures (fun offsets => OffsetTable offsets.1 items offsets.2 ∧
      offsets.2 = offsets.1.back?.getD 0 ∧ offsets.2 < wordLimit)
      (takeOffsets items ordinal cause) := by
  refine (Ensures.numbers (items + 1)).bind fun table ⟨hsize, hlt⟩ => ?_
  refine (Ensures.ofExcept (Ensures.require ordinal cause)).bind fun _ hcheck => ?_
  refine Ensures.pure ⟨⟨hsize, hcheck⟩, rfl, ?_⟩
  have hback : table.back? = some table[items] := by simp [Array.back?, hsize]
  simp only [hback, Option.getD_some]
  exact hlt _ (Array.getElem_mem _)

/-- The body of a section gives what its reader ensures. -/
theorem ensures_readBody {P : α → Prop} {read : Take α} (h : Take.Ensures P read) (ordinal : Nat)
    (tag : Section.Tag) (raw : RawSection) :
    RecordStore.Ensures P (readBody ordinal tag raw read) := by
  rw [readBody]
  split
  · exact fun fault he => by cases he
  · refine RecordStore.Ensures.bind (h (.start raw.body)) fun taken hp => ?_
    exact (RecordStore.Ensures.require ordinal .trailingBody).bind fun _ _ => hp

theorem ensures_takeSection (ordinal : Nat) :
    Take.Ensures (fun _ => True) (takeSection ordinal) := by
  refine (Ensures.number 1).bind fun tag _ => (Ensures.number 4).bind fun found _ => ?_
  split
  · exact Ensures.throw fun fault h => by cases h
  · refine (Ensures.number 2).bind fun length _ => (Ensures.bytes length).bind fun args _ => ?_
    -- the rest of the section stands behind both outcomes of the match
    have hbody (args : String) : Take.Ensures (fun _ => True) (do
        let length ← Take.number 8
        return RawSection.mk tag args (← Take.bytes length)) :=
      (Ensures.number 8).bind fun length _ => (Ensures.bytes length).bind fun _ _ =>
        Ensures.pure trivial
    split
    · exact hbody _
    · intro c fault h
      cases h

theorem ensures_takeWidth (node : FlatNode) :
    Take.Ensures (fun _ => True) (takeWidth node) :=
  (Ensures.number 4).bind fun _ _ =>
    (Ensures.ofExcept (Ensures.require _ _)).bind fun _ _ => Ensures.pure trivial

theorem ensures_takeFlat (node : FlatNode) : Take.Ensures FlatView.Sound (takeFlat node) := by
  refine (ensures_takeWidth node).bind fun width _ => (Ensures.number 8).bind fun count _ => ?_
  refine (Ensures.ofExcept (Ensures.require _ _)).bind fun _ hfits => ?_
  refine (Ensures.bytes _).bind fun data hdata => Ensures.pure ⟨of_decide_eq_true hfits, ?_⟩
  rw [List.size_toArray, hdata]

theorem ensures_takeRagged (node : FlatNode) :
    Take.Ensures (fun view => ∃ elements, view.Sound elements) (takeRagged node) := by
  refine (ensures_takeWidth node).bind fun width _ => (Ensures.number 8).bind fun count _ => ?_
  refine (ensures_takeOffsets count _ _).bind fun ⟨offsets, elements⟩ ⟨htable, _, _⟩ => ?_
  refine (Ensures.ofExcept (Ensures.require _ _)).bind fun _ hfits => ?_
  refine (Ensures.bytes _).bind fun data hdata =>
    Ensures.pure ⟨elements, htable, of_decide_eq_true hfits, ?_⟩
  rw [List.size_toArray, hdata]

theorem ensures_takeShape (ordinal : Nat) : Take.Ensures ShapeView.Sound (takeShape ordinal) := by
  refine (Ensures.number 8).bind fun count _ => ?_
  refine (ensures_takeOffsets count _ _).bind fun ⟨offsets, total⟩ ⟨htable, htotal, _⟩ => ?_
  obtain rfl : total = offsets.back?.getD 0 := htotal
  exact Ensures.pure htable

/-- The check of a bucket table does not fault, and a table that passes covers its keys. -/
theorem exists_checkBuckets {tables : HashTables} {entryStarts : Array Nat} {instances total : Nat}
    (hindex : OffsetTable tables.index instances tables.table.size)
    (hstarts : OffsetTable entryStarts instances total) {i : Nat} (hi : i < instances) :
    ∃ fits, checkBuckets tables entryStarts i = .ok fits ∧ (fits = true →
      ∀ first last start stop,
        Checked.entry tables.index i = .ok first → Checked.entry tables.index (i + 1) = .ok last →
        Checked.entry entryStarts i = .ok start → Checked.entry entryStarts (i + 1) = .ok stop →
        tables.Covers first last (stop - start)) := by
  obtain ⟨first, last, hfirst, hlast, hle, hsize⟩ := hindex.exists_entry hi
  obtain ⟨start, stop, hstart, hstop, hkeys, -⟩ := hstarts.exists_entry hi
  refine ⟨decide (last - first - 1 = Bucket.leastPower (last - first - 1)) &&
    isOffsetTable (tables.table.extract first last).toList (stop - start), ?_, ?_⟩
  · simp only [checkBuckets, hfirst, hlast, hstart, hstop]
    show (do
      if last < first ∨ tables.table.size < last then throw .outOfRange
      let bounds := (tables.table.extract first last).toList
      let keys ← Checked.sub stop start
      let count := last - first - 1
      return count = Bucket.leastPower count && isOffsetTable bounds keys : Checked Bool) = _
    rw [if_neg (by omega), Checked.sub, if_pos hkeys]
    rfl
  · intro hfits first' last' start' stop' hf hl hs ht
    obtain rfl := Except.ok.inj (hfirst.symm.trans hf)
    obtain rfl := Except.ok.inj (hlast.symm.trans hl)
    obtain rfl := Except.ok.inj (hstart.symm.trans hs)
    obtain rfl := Except.ok.inj (hstop.symm.trans ht)
    rw [Bool.and_eq_true, decide_eq_true_eq] at hfits
    have hpos := Bucket.leastPower_pos (last - first - 1)
    refine ⟨by omega, hsize, by omega, ?_, hfits.2⟩
    rw [Array.size_extract]
    omega

theorem ensures_takeHash (ordinal : Nat) {instances total : Nat} {entryStarts : Array Nat}
    (hstarts : OffsetTable entryStarts instances total) :
    Take.Ensures (fun tables => tables.Sound entryStarts instances)
      (takeHash ordinal instances entryStarts) := by
  refine (ensures_takeOffsets instances _ _).bind fun ⟨index, size⟩ ⟨hindex, _, hlt⟩ => ?_
  refine (Ensures.numbers size).bind fun table ⟨hsize, _⟩ => ?_
  obtain rfl : table.size = size := hsize
  refine (Ensures.forIn (R := fun i => ∀ first last start stop,
    Checked.entry index i = .ok first → Checked.entry index (i + 1) = .ok last →
    Checked.entry entryStarts i = .ok start → Checked.entry entryStarts (i + 1) = .ok stop →
    HashTables.Covers ⟨index, table⟩ first last (stop - start)) fun i hi => ?_).bind
      fun _ hcovers => Ensures.pure ⟨hlt, hindex, fun i hi => hcovers i (List.mem_range.2 hi)⟩
  obtain ⟨fits, hcheck, hcovers⟩ :=
    @exists_checkBuckets ⟨index, table⟩ _ _ _ hindex hstarts i (List.mem_range.1 hi)
  simp only [hcheck]
  exact (Ensures.ofExcept (Ensures.require _ _)).bind fun _ hfits =>
    Ensures.pure ⟨rfl, hcovers hfits⟩

theorem ensures_takeKeyed (ordinal : Nat) (ordered : Bool) :
    Take.Ensures KeyedView.Sound (takeKeyed ordinal ordered) := by
  refine (Ensures.number 1).bind fun set _ => (Ensures.number 8).bind fun instances _ => ?_
  refine (ensures_takeOffsets instances _ _).bind fun ⟨starts, entries⟩ ⟨hstarts, htotal, hlt⟩ => ?_
  refine (ensures_takeOffsets entries _ _).bind fun ⟨offsets, size⟩ ⟨hoffsets, _, _⟩ => ?_
  refine (Ensures.bytes size).bind fun keys hkeys => ?_
  obtain rfl : entries = starts.back?.getD 0 := htotal
  obtain rfl : keys.length = size := hkeys
  have hsound (hash : Option HashTables)
      (hh : ∀ tables ∈ hash, tables.Sound starts instances) :
      KeyedView.Sound ⟨decide (set ≠ 0), instances, starts, offsets, keys.toArray, hash⟩ :=
    ⟨hlt, hstarts, by simpa [KeyedView.total] using hoffsets, hh⟩
  cases ordered with
  | true => exact Ensures.pure (hsound none (by simp))
  | false =>
    refine (Take.Ensures.map (f := some) (Q := fun hash => ∀ tables ∈ hash,
      tables.Sound starts instances) ?_).bind fun hash hh => Ensures.pure (hsound hash hh)
    simpa using ensures_takeHash ordinal hstarts

end Container

end RecordStore
