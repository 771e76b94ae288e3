import RecordStore.Proofs.BuiltArchives

/-!
# Areas in memory and on disk

Wherever the log of an area lives, the area answers each call as a ledger does, which has its bytes
and ranges and no backing. So a build gives the same in memory as on disk. The file of an area on
disk is there from when the area is opened to when it is closed; a build that opens no area whose
file is there gives the same once more, so no two areas that are open at once have one name.

## Main definitions

* `Area.Call`, `Area.Answer` — the calls of an area, and what they give.
* `Area.run` — the answers to a row of calls.
* `Ledger` — an area without a backing.
* `Area.Follows` — whether an area holds what a ledger has.

## Main statements

* `Area.follows_call`, `Area.follows_run` — an area answers as its ledger does.
* `Area.file_of_run` — the file of an area is there until the area is closed.
* `staging_backings_agree` — areas and builds in memory and on disk give the same.
-/

namespace RecordStore

/-! ## Calls -/

namespace Area

inductive Call
  | append (payload : Bytes)
  | write (bytes : Bytes)
  | read (handle : Handle)
  /-- Reads everything to its end. -/
  | contents
  deriving DecidableEq, Repr

inductive Answer
  | handle (handle : Handle)
  | written
  | payload (outcome : Except StagingError Bytes)
  | contents (bytes : Bytes)
  deriving Repr

def call (a : Area) (d : Directory) : Call → Answer × Area × Directory
  | .append payload => ((.handle (a.append payload d).1), (a.append payload d).2)
  | .write bytes => (.written, a.write bytes d)
  | .read handle => (.payload (a.read handle d).1, (a.read handle d).2)
  | .contents => (.contents (a.contents d).1, (a.contents d).2)

/-- The answer to each call with the length of the area behind it, and what is left in the end. -/
def run (a : Area) (d : Directory) : List Call → List (Answer × Nat) × Area × Directory
  | [] => ([], a, d)
  | c :: calls =>
    let (answer, a, d) := a.call d c
    let (answers, rest) := run a d calls
    ((answer, a.length) :: answers, rest)

end Area

/-- An area without a backing. -/
structure Ledger where
  name : String
  log : Bytes
  /-- Offset and length of each payload. -/
  ranges : List (Nat × Nat)
  deriving DecidableEq, Repr

namespace Ledger

open Area (Call Answer)

def empty (name : String) : Ledger := ⟨name, [], []⟩

def read (l : Ledger) (handle : Area.Handle) : Except StagingError Bytes :=
  match l.ranges[handle]? with
  | none => .error (.noPayload handle l.name)
  | some (offset, length) => .ok ((l.log.drop offset).take length)

def call (l : Ledger) : Call → Answer × Ledger
  | .append payload =>
    (.handle l.ranges.length,
      ⟨l.name, l.log ++ payload, l.ranges ++ [(l.log.length, payload.length)]⟩)
  | .write bytes => (.written, ⟨l.name, l.log ++ bytes, l.ranges⟩)
  | .read handle => (.payload (l.read handle), l)
  | .contents => (.contents l.log, l)

def run (l : Ledger) : List Call → List (Answer × Nat) × Ledger
  | [] => ([], l)
  | c :: calls =>
    let (answer, l) := l.call c
    let (answers, rest) := run l calls
    ((answer, l.log.length) :: answers, rest)

theorem name_run (l : Ledger) (calls : List Call) : (l.run calls).2.name = l.name := by
  induction calls generalizing l with
  | nil => rfl
  | cons c calls ih => exact (ih _).trans (by cases c <;> rfl)

end Ledger

/-! ## Areas follow their ledgers -/

namespace Area

/-- Whether an area holds what a ledger has. All ranges lie within the bytes. -/
structure Follows (a : Area) (d : Directory) (l : Ledger) : Prop where
  name : a.name = l.name
  keeps : a.Keeps d l.log
  length : a.length = l.log.length
  ranges : a.ranges.toList = l.ranges
  within : ∀ range ∈ l.ranges, range.1 + range.2 ≤ l.log.length

variable {a : Area} {d : Directory} {l : Ledger}

theorem follows_create (onDisk : Bool) (name : String) (d : Directory) :
    (create onDisk name d).1.Follows (create onDisk name d).2 (.empty name) := by
  refine ⟨name_create .., keeps_create .., ?_, ?_, by simp [Ledger.empty]⟩ <;>
    cases onDisk <;> rfl

theorem follows_write (h : a.Follows d l) (bytes : Bytes) :
    (a.write bytes d).1.Follows (a.write bytes d).2 ⟨l.name, l.log ++ bytes, l.ranges⟩ := by
  obtain ⟨hk, hc, hl, hr⟩ := keeps_write h.keeps bytes
  refine ⟨hc.name.trans h.name, hk, ?_, hr ▸ h.ranges, fun range hm => ?_⟩
  · rw [hl, h.length, List.length_append]
  · have := h.within range hm
    rw [List.length_append]
    omega

theorem follows_append (h : a.Follows d l) (payload : Bytes) :
    (a.append payload d).1 = l.ranges.length ∧
      (a.append payload d).2.1.Follows (a.append payload d).2.2
        ⟨l.name, l.log ++ payload, l.ranges ++ [(l.log.length, payload.length)]⟩ := by
  obtain ⟨hn, hk, hl, hr, hw⟩ := follows_write h payload
  refine ⟨?_, hn, hk, hl, ?_, fun range hm => ?_⟩
  · rw [← hr, Array.length_toList]
    rfl
  · show ((a.write payload d).1.ranges.push (a.length, payload.length)).toList = _
    rw [Array.toList_push, hr, h.length]
  · rcases List.mem_append.1 hm with hm | hm
    · exact hw range hm
    · obtain rfl := List.mem_singleton.1 hm
      rw [List.length_append]

theorem follows_read (h : a.Follows d l) (handle : Handle) :
    (a.read handle d).1 = l.read handle ∧
      (a.read handle d).2.1.Follows (a.read handle d).2.2 l := by
  have hranges : a.ranges[handle]? = l.ranges[handle]? := by
    rw [← h.ranges, Array.getElem?_toList]
  cases hr : a.ranges[handle]? with
  | none =>
    simp only [read, hr, Ledger.read, ← hranges, h.name]
    exact ⟨trivial, h⟩
  | some range =>
    obtain ⟨hread, hk, hc, hl, hr'⟩ := keeps_read h.keeps hr
      (h.within range (List.mem_of_getElem? (hranges ▸ hr)))
    rw [hread, Ledger.read, ← hranges, hr]
    exact ⟨rfl, hc.name.trans h.name, hk, hl.trans h.length, hr' ▸ h.ranges, h.within⟩

theorem follows_contents (h : a.Follows d l) :
    (a.contents d).1 = l.log ∧ (a.contents d).2.1.Follows (a.contents d).2.2 l := by
  obtain ⟨hbytes, hc⟩ := contents_eq h.keeps
  obtain ⟨hk, hl, hr⟩ := keeps_contents h.keeps
  exact ⟨hbytes, hc.name.trans h.name, hk, hl.trans h.length, hr ▸ h.ranges, h.within⟩

/-- An area answers a call as its ledger does, and follows it still. -/
theorem follows_call (h : a.Follows d l) (c : Call) :
    (a.call d c).1 = (l.call c).1 ∧
      (a.call d c).2.1.Follows (a.call d c).2.2 (l.call c).2 := by
  cases c with
  | append payload =>
    obtain ⟨hhandle, hf⟩ := follows_append h payload
    exact ⟨congrArg Answer.handle hhandle, hf⟩
  | write bytes => exact ⟨rfl, follows_write h bytes⟩
  | read handle =>
    obtain ⟨hread, hf⟩ := follows_read h handle
    exact ⟨congrArg Answer.payload hread, hf⟩
  | contents =>
    obtain ⟨hbytes, hf⟩ := follows_contents h
    exact ⟨congrArg Answer.contents hbytes, hf⟩

/-- An area answers a row of calls as its ledger does. -/
theorem follows_run (h : a.Follows d l) (calls : List Call) :
    (a.run d calls).1 = (l.run calls).1 ∧
      (a.run d calls).2.1.Follows (a.run d calls).2.2 (l.run calls).2 := by
  induction calls generalizing a d l with
  | nil => exact ⟨rfl, h⟩
  | cons c calls ih =>
    obtain ⟨hanswer, hf⟩ := follows_call h c
    obtain ⟨hanswers, hrest⟩ := ih hf
    exact ⟨congrArg₂ List.cons (Prod.ext hanswer hf.length) hanswers, hrest⟩

/-! ## Files of areas -/

def isOnDisk (a : Area) : Bool :=
  match a.backing with
  | .memory _ => false
  | .disk .. => true

@[simp] theorem isOnDisk_create (onDisk : Bool) (name : String) (d : Directory) :
    (create onDisk name d).1.isOnDisk = onDisk := by
  cases onDisk <;> rfl

@[simp] theorem isOnDisk_flush (a : Area) (d : Directory) :
    (a.flush d).1.isOnDisk = a.isOnDisk := by
  obtain ⟨name, backing, length, ranges⟩ := a
  cases backing <;> rfl

@[simp] theorem isOnDisk_push (a : Area) (bytes : Bytes) (d : Directory) :
    (a.push bytes d).1.isOnDisk = a.isOnDisk := by
  obtain ⟨name, backing, length, ranges⟩ := a
  cases backing with
  | memory log => rfl
  | disk position pending =>
    simp only [push]
    split <;> split <;> rfl

@[simp] theorem isOnDisk_write (a : Area) (bytes : Bytes) (d : Directory) :
    (a.write bytes d).1.isOnDisk = a.isOnDisk :=
  isOnDisk_push a bytes d

@[simp] theorem isOnDisk_read (a : Area) (handle : Handle) (d : Directory) :
    (a.read handle d).2.1.isOnDisk = a.isOnDisk := by
  obtain ⟨name, backing, length, ranges⟩ := a
  unfold read
  split
  · rfl
  · cases backing with
    | memory log => rfl
    | disk position pending =>
      dsimp only
      split <;> rfl

@[simp] theorem isOnDisk_contents (a : Area) (d : Directory) :
    (a.contents d).2.1.isOnDisk = a.isOnDisk := by
  obtain ⟨name, backing, length, ranges⟩ := a
  cases backing <;> rfl

@[simp] theorem isOnDisk_call (a : Area) (d : Directory) (c : Call) :
    (a.call d c).2.1.isOnDisk = a.isOnDisk := by
  cases c with
  | append payload => exact isOnDisk_write a payload d
  | write bytes => exact isOnDisk_write a bytes d
  | read handle => exact isOnDisk_read a handle d
  | contents => exact isOnDisk_contents a d

theorem isOnDisk_run (a : Area) (d : Directory) (calls : List Call) :
    (a.run d calls).2.1.isOnDisk = a.isOnDisk := by
  induction calls generalizing a d with
  | nil => rfl
  | cons c calls ih => exact (ih _ _).trans (isOnDisk_call a d c)

theorem Keeps.lookup_isSome {log : Bytes} (h : a.Keeps d log) (hdisk : a.isOnDisk = true) :
    (d.files.lookup a.name).isSome = true := by
  obtain ⟨name, backing, length, ranges⟩ := a
  cases backing with
  | memory stored => cases hdisk
  | disk position pending =>
    obtain ⟨content, hl, -⟩ := h
    rw [hl]
    rfl

theorem lookup_close (d : Directory) (hdisk : a.isOnDisk = true) :
    (a.close d).files.lookup a.name = none := by
  obtain ⟨name, backing, length, ranges⟩ := a
  cases backing with
  | memory stored => cases hdisk
  | disk position pending =>
    refine List.lookup_eq_none_iff.2 fun file hm => ?_
    exact bne_iff_ne.2 (bne_iff_ne.1 (List.mem_filter.1 hm).2).symm

/-- The file of an area is there from when the area is opened to when it is closed. -/
theorem file_of_run (name : String) (d : Directory) (calls : List Call) :
    let left := ((create true name d).1.run (create true name d).2 calls).2
    (left.2.files.lookup name).isSome = true ∧ (left.1.close left.2).files.lookup name = none := by
  intro left
  have hdisk : left.1.isOnDisk = true :=
    (isOnDisk_run _ (create true name d).2 calls).trans (isOnDisk_create true name d)
  obtain ⟨-, hf⟩ := follows_run (follows_create true name d) calls
  have hname : left.1.name = name := hf.name.trans (Ledger.name_run _ calls)
  refine ⟨?_, ?_⟩
  · rw [← hname]
    exact hf.keeps.lookup_isSome hdisk
  · have := lookup_close left.2 hdisk
    rwa [hname] at this

/-- Areas in memory and on disk give the same answers. -/
theorem answers_create (name : String) (d d' : Directory) (calls : List Call) :
    ((create true name d).1.run (create true name d).2 calls).1 =
      ((create false name d').1.run (create false name d').2 calls).1 :=
  (follows_run (follows_create true name d) calls).1.trans
    (follows_run (follows_create false name d') calls).1.symm

end Area

/-! ## Builds -/

/-- However areas are opened, a build gives the same, as long as they can be opened. -/
theorem Opener.build_eq_memory {opener : Opener} (hl : opener.Local) {schema : Schema}
    (hr : opener.Ready 0 schema.size .empty) (hn : schema.NumberedFrom 0) (outer : Option Bytes)
    (input : Except SystemError Bytes) :
    opener.build schema outer input = RecordStore.build .memory schema outer input := by
  cases input with
  | ok text => rw [build_eq_written hl hr hn, RecordStore.build_eq_written (by simp) hn]
  | error cause => rw [build_eq (by simp), build_error, build_error]

/-- Areas in memory and on disk answer all calls alike, and builds of all inputs write and say the
same in memory and on disk. The file of an area is there from when the area is opened to when it is
closed, and a build that opens no area whose file is there writes and says the same too: no two
areas of a build that are open at once have one name. -/
theorem staging_backings_agree {format : String} {schema : Schema}
    (hp : parse format = .ok schema) :
    (∀ name d d' calls,
      ((Area.create true name d).1.run (Area.create true name d).2 calls).1 =
        ((Area.create false name d').1.run (Area.create false name d').2 calls).1) ∧
    (∀ parent outer input,
      build (.disk parent none) schema outer input = build .memory schema outer input) ∧
    (∀ name d calls,
      let left := ((Area.create true name d).1.run (Area.create true name d).2 calls).2
      (left.2.files.lookup name).isSome = true ∧
        (left.1.close left.2).files.lookup name = none) ∧
    ∀ outer input,
      Opener.build Build.openNewArea schema outer input = build .memory schema outer input := by
  have hn := numberedFrom_of_parse hp
  refine ⟨Area.answers_create, fun parent outer input => ?_, Area.file_of_run,
    Opener.build_eq_memory Opener.local_openNewArea (Opener.ready_openNewArea _ _) hn⟩
  rw [build_eq (by simp)]
  exact Opener.build_eq_memory (Opener.local_openArea _) (Opener.ready_openArea _ _ _ _) hn
    outer input

def stagedSample : Schema :=
  .map ⟨0, "T(c)=(V(l),);"⟩ ⟨⟨⟨1, "c"⟩, .primitive .char⟩, [0x3d], true, []⟩
    (.sequence ⟨2, "V(l),"⟩ (.flat ⟨⟨3, "l"⟩, .primitive .i32⟩) [0x2c] []) [0x3b]

theorem parse_stagedSample : parse "T(c)=(V(l),);" = .ok stagedSample := by decide +kernel

theorem build_stagedSample : (build .memory stagedSample none
    (.ok (Bytes.ofText "b=2,;a=1,3,;b=4,;"))).2 = .ok ⟨1, 0, 185⟩ := by decide +kernel

theorem staged_sample_agrees :
    (build (.disk "staging" none) stagedSample none
        (.ok (Bytes.ofText "b=2,;a=1,3,;b=4,;"))).2 = .ok ⟨1, 0, 185⟩ ∧
      (Opener.build Build.openNewArea stagedSample none
        (.ok (Bytes.ofText "b=2,;a=1,3,;b=4,;"))).2 = .ok ⟨1, 0, 185⟩ := by
  obtain ⟨-, hdisk, -, hnew⟩ := staging_backings_agree parse_stagedSample
  rw [hdisk, hnew]
  exact ⟨build_stagedSample, build_stagedSample⟩

end RecordStore
