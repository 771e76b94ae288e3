import RecordStore.Proofs.SoundArchives

/-!
# Files that end where they say

A reader of sections takes bytes from the front and never looks behind them. So it goes the same
way whatever follows, and runs out of data if one of the bytes that it takes is missing. A file
that opens is therefore no longer one with a part cut off, and cannot be followed by anything.

## Main definitions

* `Take.Marks` — a reader takes certain bytes, no more and no fewer.
* `Take.SelfDelimiting` — a reader that succeeds anywhere takes certain bytes there.

## Main statements

* `Take.SelfDelimiting.bind` — readers in turn.
* `Container.selfDelimiting_takeNode` — the sections of a schema.
* `Archive.open_prefix_free` — files cut short and files with something behind them.
-/

namespace RecordStore

variable {α β : Type}

namespace Take

/-! ## Readers -/

/-- From a position on, reading takes exactly these bytes whatever follows, and runs out of data if
some of them are missing at the end. -/
structure Marks (read : Take α) (position : Nat) (taken : Bytes) (a : α) : Prop where
  reads : ∀ tail, read ⟨position, taken ++ tail⟩ = .ok (a, ⟨position + taken.length, tail⟩)
  runsOut : ∀ front, front <+: taken → front ≠ taken →
    ∃ stop, read ⟨position, front⟩ = .error (.truncated stop)

/-- Wherever reading succeeds, it takes bytes from the front that it would take anywhere. -/
def SelfDelimiting (read : Take α) : Prop :=
  ∀ c a c', read c = .ok (a, c') →
    ∃ taken, c.rest = taken ++ c'.rest ∧ Marks read c.position taken a

theorem exists_of_bind {read : Take α} {next : α → Take β} {c c'' : Cursor} {b : β}
    (h : (read >>= next) c = .ok (b, c'')) :
    ∃ a c', read c = .ok (a, c') ∧ next a c' = .ok (b, c'') := by
  rw [bind_apply] at h
  cases hr : read c with
  | error e =>
    rw [hr] at h
    cases h
  | ok taken =>
    rw [hr] at h
    exact ⟨taken.1, taken.2, rfl, h⟩

/-- A part of two texts in a row ends in the first or in the second. -/
theorem isPrefix_append_cases {front first second : Bytes} (h : front <+: first ++ second)
    (hne : front ≠ first ++ second) :
    (front <+: first ∧ front ≠ first) ∨
      ∃ back, front = first ++ back ∧ back <+: second ∧ back ≠ second := by
  by_cases hfirst : first <+: front
  · obtain ⟨back, rfl⟩ := hfirst
    exact .inr ⟨back, rfl, (List.prefix_append_right_inj first).1 h, fun heq => hne (by rw [heq])⟩
  · have hshort := (List.prefix_or_prefix_of_prefix h (List.prefix_append _ _)).resolve_right hfirst
    exact .inl ⟨hshort, fun heq => hfirst (heq ▸ List.prefix_rfl)⟩

theorem Marks.position_eq {read : Take α} {c c' : Cursor} {taken : Bytes} {a : α}
    (h : Marks read c.position taken a) (hrest : c.rest = taken ++ c'.rest)
    (hread : read c = .ok (a, c')) : c'.position = c.position + taken.length := by
  have hreads := h.reads c'.rest
  rw [← hrest, hread, Except.ok.injEq, Prod.mk.injEq] at hreads
  exact congrArg Cursor.position hreads.2

theorem Marks.bind {read : Take α} {next : α → Take β} {position : Nat} {first second : Bytes}
    {a : α} {b : β} (h : Marks read position first a)
    (hn : Marks (next a) (position + first.length) second b) :
    Marks (read >>= next) position (first ++ second) b where
  reads tail := by
    rw [bind_apply, List.append_assoc, h.reads]
    simp only
    rw [hn.reads, List.length_append, Nat.add_assoc]
  runsOut front hfront hne := by
    rw [bind_apply]
    rcases isPrefix_append_cases hfront hne with ⟨hfirst, hne⟩ | ⟨back, rfl, hback, hne⟩
    · obtain ⟨stop, hstop⟩ := h.runsOut front hfirst hne
      exact ⟨stop, by rw [hstop]⟩
    · rw [h.reads]
      exact hn.runsOut back hback hne

namespace SelfDelimiting

theorem pure (a : α) : SelfDelimiting (pure a : Take α) := by
  intro c b c' h
  cases h
  refine ⟨[], rfl, fun tail => rfl, fun front hfront hne => ?_⟩
  exact absurd (List.prefix_nil.1 hfront) hne

theorem throw (e : ReadError) : SelfDelimiting (throw e : Take α) := by
  intro c a c' h
  cases h

theorem ofExcept (outcome : Except ReadError α) : SelfDelimiting (liftM outcome : Take α) := by
  cases outcome with
  | error e =>
    intro c a c' h
    cases h
  | ok a => exact pure a

theorem bytes (n : Nat) : SelfDelimiting (Take.bytes n) := by
  intro c taken c' h
  rw [bytes_apply] at h
  split at h
  · cases h
  · rename_i hlong
    obtain ⟨rfl, rfl⟩ := Prod.mk.inj (Except.ok.inj h)
    have hlength : (c.rest.take n).length = n := by grind
    refine ⟨c.rest.take n, (List.take_append_drop ..).symm, fun tail => ?_, ?_⟩
    · rw [bytes_apply, List.take_left' hlength, List.drop_left' hlength, hlength,
        if_neg (Nat.lt_irrefl _)]
    · intro front hfront hne
      have hshort : front.length < n := by
        have := hfront.length_le
        have := mt hfront.eq_of_length hne
        omega
      exact ⟨c.position, bytes_eq_error hshort⟩

theorem bind {read : Take α} {next : α → Take β} (h : SelfDelimiting read)
    (hn : ∀ a, SelfDelimiting (next a)) : SelfDelimiting (read >>= next) := by
  intro c b c'' hread
  obtain ⟨a, c', hread, hnext⟩ := exists_of_bind hread
  obtain ⟨first, hfirst, hmarks⟩ := h c a c' hread
  obtain ⟨second, hsecond, hmarks'⟩ := hn a c' b c'' hnext
  refine ⟨first ++ second, by rw [hfirst, hsecond, List.append_assoc], hmarks.bind ?_⟩
  rwa [← hmarks.position_eq hfirst hread]

theorem number (width : Nat) : SelfDelimiting (Take.number width) :=
  (bytes width).bind fun _ => pure _

theorem position {next : Nat → Take β} (h : ∀ n, SelfDelimiting (next n)) :
    SelfDelimiting ((get : Take Cursor) >>= fun c => next c.position) := by
  intro c b c' hread
  obtain ⟨taken, htaken, hmarks⟩ := h c.position c b c' hread
  exact ⟨taken, htaken, hmarks.reads, hmarks.runsOut⟩

end SelfDelimiting

end Take

/-! ## Sections -/

namespace Container

open Take (SelfDelimiting)

theorem selfDelimiting_takeSection (ordinal : Nat) : SelfDelimiting (takeSection ordinal) := by
  refine (SelfDelimiting.number 1).bind fun tag => (SelfDelimiting.number 4).bind fun found => ?_
  split
  · exact .throw _
  · refine (SelfDelimiting.number 2).bind fun length => (SelfDelimiting.bytes length).bind ?_
    intro args
    split
    · exact (SelfDelimiting.pure _).bind fun args => (SelfDelimiting.number 8).bind fun length =>
        (SelfDelimiting.bytes length).bind fun _ => .pure _
    · exact .throw _

/-- The sections of a schema are read up to the end of the last one. Their bodies are read on
their own. -/
theorem selfDelimiting_takeNode (s : Schema) : SelfDelimiting (takeNode s) := by
  induction s with
  | flat node =>
    refine (selfDelimiting_takeSection _).bind fun raw => ?_
    split
    · exact (SelfDelimiting.ofExcept _).bind fun view => .pure _
    · exact (SelfDelimiting.ofExcept _).bind fun view => .pure _
    · exact (SelfDelimiting.ofExcept _).bind fun view => .pure _
  | sequence label element sep args ih =>
    refine (selfDelimiting_takeSection _).bind fun raw => ?_
    refine (SelfDelimiting.ofExcept _).bind fun view => ih.bind fun child => ?_
    exact (SelfDelimiting.ofExcept _).bind fun _ => .pure _
  | set label keys =>
    refine (selfDelimiting_takeSection _).bind fun raw => ?_
    exact (SelfDelimiting.ofExcept _).bind fun view => .pure _
  | map label keys value sep ih =>
    refine (selfDelimiting_takeSection _).bind fun raw => ?_
    refine (SelfDelimiting.ofExcept _).bind fun view => ih.bind fun child => ?_
    split
    · exact .pure _
    · exact (SelfDelimiting.ofExcept _).bind fun _ => .pure _
  | pair label first second sep ih₁ ih₂ =>
    refine (selfDelimiting_takeSection _).bind fun raw => ?_
    refine (SelfDelimiting.ofExcept _).bind fun instances => ?_
    refine ih₁.bind fun firstChild => ih₂.bind fun secondChild => ?_
    refine (SelfDelimiting.ofExcept _).bind fun _ => ?_
    exact (SelfDelimiting.ofExcept _).bind fun _ => .pure _

end Container

/-! ## Headers -/

namespace Header

open Take (SelfDelimiting Marks)

def takeFields : Take (String × Nat) := do
  let found ← Take.number 4
  if found ≠ version then throw (.unsupportedVersion found)
  let _flags ← Take.number 4
  let length ← Take.number 4
  let position := (← get).position
  match Utf8.read? (← Take.bytes length) with
  | some format => return (format, (← get).position)
  | none => throw (.truncated position)

theorem read_magic (rest : Bytes) :
    read (magic ++ rest) = (takeFields ⟨magic.length, rest⟩).map (·.1) := by
  have htake : (magic ++ rest).take magic.length = magic := List.take_left' rfl
  have hstart : (Cursor.start (magic ++ rest)).advance magic.length = ⟨magic.length, rest⟩ := by
    simp [Cursor.start, Cursor.advance]
  rw [read, htake, hstart]
  show (takeFields ⟨magic.length, rest⟩ >>= fun taken => pure taken.1) = _
  cases takeFields ⟨magic.length, rest⟩ <;> rfl

theorem read_of_not_magic {bytes : Bytes} (h : bytes.take magic.length ≠ magic) :
    read bytes = .error .invalidMagic := by
  rw [read, if_pos h]
  rfl

theorem selfDelimiting_takeFields : SelfDelimiting takeFields := by
  refine (SelfDelimiting.number 4).bind fun found => ?_
  split
  · exact .throw _
  · refine (SelfDelimiting.number 4).bind fun flags => ?_
    refine (SelfDelimiting.number 4).bind fun length => ?_
    have hformat (position : Nat) : SelfDelimiting (do
        match Utf8.read? (← Take.bytes length) with
        | some format => return (format, (← get).position)
        | none => throw (.truncated position)) := by
      refine (SelfDelimiting.bytes length).bind fun text => ?_
      split
      · exact SelfDelimiting.position fun position => .pure _
      · exact .throw _
    exact SelfDelimiting.position hformat

theorem position_of_takeFields {c c' : Cursor} {format : String} {position : Nat}
    (h : takeFields c = .ok ((format, position), c')) : position = c'.position := by
  obtain ⟨found, c₁, -, h⟩ := Take.exists_of_bind h
  split at h
  · cases h
  · obtain ⟨flags, c₂, -, h⟩ := Take.exists_of_bind h
    obtain ⟨length, c₃, -, h⟩ := Take.exists_of_bind h
    obtain ⟨c₄, c₅, -, h⟩ := Take.exists_of_bind h
    obtain ⟨text, c₆, -, h⟩ := Take.exists_of_bind h
    cases hformat : Utf8.read? text with
    | none =>
      rw [hformat] at h
      cases h
    | some found =>
      rw [hformat] at h
      cases h
      rfl

/-- A header that is read stands in front of the file, whatever is behind it; one that is cut
short is not read. -/
theorem exists_front {bytes : Bytes} {format : String} {position : Nat}
    (h : read bytes = .ok (format, position)) :
    ∃ front, bytes = front ++ bytes.drop position ∧ position = front.length ∧
      (∀ tail, read (front ++ tail) = .ok (format, position)) ∧
      ∀ part, part <+: front → part ≠ front →
        read part = .error .invalidMagic ∨ ∃ stop, read part = .error (.truncated stop) := by
  by_cases hmagic : bytes.take magic.length = magic
  · obtain ⟨rest, rfl⟩ : ∃ rest, bytes = magic ++ rest :=
      ⟨bytes.drop magic.length, by grind [List.take_append_drop]⟩
    rw [read_magic, map_eq_ok] at h
    obtain ⟨⟨_, c⟩, hfields, rfl⟩ := h
    obtain ⟨taken, htaken, hmarks⟩ := selfDelimiting_takeFields _ _ _ hfields
    have hread (tail : Bytes) : read (magic ++ taken ++ tail) = .ok (format, position) := by
      rw [List.append_assoc, read_magic, hmarks.reads]
      rfl
    have hposition : position = (magic ++ taken).length := by
      rw [position_of_takeFields hfields, hmarks.position_eq htaken hfields, List.length_append]
    refine ⟨magic ++ taken, ?_, hposition, hread, fun part hpart hne => ?_⟩
    · change rest = taken ++ c.rest at htaken
      rw [hposition, htaken, ← List.append_assoc, List.drop_left]
    rcases Take.isPrefix_append_cases hpart hne with ⟨hshort, hne⟩ | ⟨back, rfl, hback, hne⟩
    · refine .inl (read_of_not_magic fun heq => hne ?_)
      rw [← List.take_of_length_le hshort.length_le, heq]
    · obtain ⟨stop, hstop⟩ := hmarks.runsOut back hback hne
      exact .inr ⟨stop, by rw [read_magic, hstop]; rfl⟩
  · rw [read_of_not_magic hmagic] at h
    cases h

end Header

/-! ## Files -/

/-- The sections of a container end with the file: one cut short runs out of data, and whatever
follows the last section is reported. -/
theorem Container.open_ends_exactly {schema : Schema} {bytes : Bytes} {root : Container}
    (h : Container.open schema bytes = .ok root) :
    (∀ front, front <+: bytes → front ≠ bytes →
      ∃ stop, Container.open schema front = .error (.truncated stop)) ∧
    ∀ tail, tail ≠ [] → Container.open schema (bytes ++ tail) =
      .error (.corrupt schema.ordinal .trailingSections) := by
  obtain ⟨⟨_, c⟩, hnode, h⟩ := bind_eq_ok.1 h
  obtain ⟨⟨⟩, hend, h⟩ := bind_eq_ok.1 h
  obtain rfl : _ = root := Except.ok.inj h
  have hrest : c.rest = [] := by grind [require, Cursor.atEnd]
  obtain ⟨taken, htaken, hmarks⟩ := selfDelimiting_takeNode schema _ _ _ hnode
  obtain rfl : bytes = taken := by rwa [hrest, List.append_nil] at htaken
  constructor
  · intro front hfront hne
    obtain ⟨stop, hstop⟩ := hmarks.runsOut front hfront hne
    refine ⟨stop, ?_⟩
    change takeNode schema (.start front) = _ at hstop
    rw [Container.open, hstop]
    rfl
  · intro tail htail
    have hreads : takeNode schema (.start (bytes ++ tail)) = _ := hmarks.reads tail
    rw [Container.open, hreads]
    cases tail with
    | nil => exact absurd rfl htail
    | cons b tail => rfl

/-- A file that opens is opened no longer when bytes are cut off at its end, and neither when bytes
are put behind it, whatever they are. -/
theorem Archive.open_prefix_free {schema : Schema} {bytes : Bytes} {archive : Archive}
    (h : Archive.open schema bytes = .ok archive) :
    (∀ front, front <+: bytes → front ≠ bytes →
      Archive.open schema front = .error .invalidMagic ∨
        ∃ stop, Archive.open schema front = .error (.truncated stop)) ∧
    ∀ tail, tail ≠ [] →
      Archive.open schema (bytes ++ tail) = .error (.corrupt schema.ordinal .trailingSections) := by
  obtain ⟨⟨format, position⟩, hheader, h⟩ := bind_eq_ok.1 h
  obtain ⟨head, hbytes, rfl, hread, hcut⟩ := Header.exists_front hheader
  dsimp only at h
  split at h
  · cases h
  rename_i hformat
  obtain rfl := not_not.1 hformat
  obtain ⟨root, hroot, -⟩ := bind_eq_ok.1 h
  obtain ⟨hshort, hlong⟩ := Container.open_ends_exactly hroot
  -- Behind the same header, what opens or not is the sections.
  have hopen (sections : Bytes) : Archive.open schema (head ++ sections) =
      (Container.open schema sections).map (⟨schema, ·⟩) := by
    rw [Archive.open, hread, ok_bind]
    simp only [ne_eq, not_true_eq_false, if_false, List.drop_left]
    cases Container.open schema sections <;> rfl
  constructor
  · intro front hfront hne
    rw [hbytes] at hfront hne
    rcases Take.isPrefix_append_cases hfront hne with ⟨hfront, hne⟩ | ⟨back, rfl, hback, hne⟩
    · rcases hcut front hfront hne with hmagic | ⟨stop, hstop⟩
      · exact .inl (by rw [Archive.open, hmagic]; rfl)
      · exact .inr ⟨stop, by rw [Archive.open, hstop]; rfl⟩
    · obtain ⟨stop, hstop⟩ := hshort back hback hne
      exact .inr ⟨stop, by rw [hopen, hstop]; rfl⟩
  · intro tail htail
    rw [hbytes, List.append_assoc, hopen, hlong tail htail]
    rfl

/-- A file that no build writes is prefix-free as well. -/
theorem Archive.unruly_file_prefix_free :
    (Archive.open unrulySample unrulyFile).map instances = .ok 1 ∧
      (∀ front, front <+: unrulyFile → front ≠ unrulyFile →
        Archive.open unrulySample front = .error .invalidMagic ∨
          ∃ stop, Archive.open unrulySample front = .error (.truncated stop)) ∧
      ∀ tail, tail ≠ [] → Archive.open unrulySample (unrulyFile ++ tail) =
        .error (.corrupt 0 .trailingSections) := by
  obtain ⟨archive, hopen, -⟩ := map_eq_ok.1 instances_unrulyFile
  exact ⟨instances_unrulyFile, open_prefix_free hopen⟩

end RecordStore
