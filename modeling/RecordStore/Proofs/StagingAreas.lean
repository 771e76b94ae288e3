import Mathlib.Data.List.Basic
import RecordStore.Proofs.Offsets
import RecordStore.Staging

/-!
# Staging areas keep what is appended

An area keeps the bytes that were appended to it, in memory as well as in a file behind a write
buffer, and gives every payload back. It touches no file but its own.

## Main definitions

* `Directory.Agree` — directories whose files are the same but for one name.
* `Area.Keeps` — the bytes that an area holds.
* `Area.Stages` — the payloads that an area holds.

## Main statements

* `Area.keeps_write`, `Area.contents_eq` — what is written is what is read in the end.
* `Area.keeps_read` — the bytes of a range are read.
* `Area.stages_append`, `Area.read_eq` — a payload is read by its handle.
-/

namespace RecordStore

/-! ## Directories -/

namespace Directory

def Agree (name : String) (d d' : Directory) : Prop :=
  ∀ other, other ≠ name → d'.files.lookup other = d.files.lookup other

namespace Agree

variable {name : String} {d d' d'' : Directory}

theorem refl (name : String) (d : Directory) : Agree name d d := fun _ _ => rfl

theorem trans (h : Agree name d d') (h' : Agree name d' d'') : Agree name d d'' :=
  fun other ho => (h' other ho).trans (h other ho)

end Agree

theorem lookup_filter (files : List (String × Array UInt8)) {name other : String}
    (h : other ≠ name) :
    (files.filter fun file => file.1 != name).lookup other = files.lookup other := by
  induction files with
  | nil => rfl
  | cons file files ih =>
    by_cases hn : file.1 = name
    · have hf : (file.1 != name) = false := by simp [hn]
      have hb : (other == file.1) = false := by simp [hn, h]
      rw [List.filter_cons_of_neg (by simp [hf]), ih, List.lookup_cons, hb]
    · have hf : (file.1 != name) = true := by simp [hn]
      rw [List.filter_cons, hf, if_pos rfl, List.lookup_cons, List.lookup_cons, ih]

theorem agree_remove (name : String) (d : Directory) : Agree name d (d.remove name) :=
  fun _ ho => lookup_filter d.files ho

theorem lookup_create (name : String) (d : Directory) :
    (d.create name).files.lookup name = some #[] := by
  simp [create]

theorem agree_create (name : String) (d : Directory) : Agree name d (d.create name) := by
  intro other ho
  have hb : (other == name) = false := by simp [ho]
  rw [create, List.lookup_cons, hb]
  exact agree_remove name d other ho

theorem lookup_map (files : List (String × Array UInt8)) (f : String → Array UInt8 → Array UInt8)
    (name : String) :
    (files.map fun (other, content) => (other, f other content)).lookup name =
      (files.lookup name).map (f name) := by
  induction files with
  | nil => rfl
  | cons file files ih =>
    rw [List.map_cons, List.lookup_cons, List.lookup_cons, ih]
    cases hb : name == file.1 with
    | true =>
      rw [eq_of_beq hb]
      rfl
    | false => rfl

theorem lookup_writeAt {name : String} {d : Directory} {content : Array UInt8}
    (h : d.files.lookup name = some content) (bytes : Array UInt8) :
    (d.writeAt name content.size bytes).files.lookup name = some (content ++ bytes) := by
  unfold writeAt
  split
  · rename_i he
    rw [h, Array.isEmpty_iff.1 he, Array.append_empty]
  · rw [lookup_map d.files fun other content' =>
      if other = name then overwrite content' content.size bytes else content', h]
    simp [overwrite]

theorem agree_writeAt (name : String) (d : Directory) (position : Nat) (bytes : Array UInt8) :
    Agree name d (d.writeAt name position bytes) := by
  intro other ho
  unfold writeAt
  split
  · rfl
  · rw [lookup_map d.files fun other content =>
      if other = name then overwrite content position bytes else content]
    simp [ho]

end Directory

/-! ## Areas -/

namespace Area

open Directory (Agree)

variable {a : Area} {d : Directory} {log : Bytes}

/-- The bytes that an area holds. On disk they are those of its file, up to which the position
stands, and those that wait in the buffer. -/
def Keeps (a : Area) (d : Directory) (log : Bytes) : Prop :=
  match a.backing with
  | .memory stored => stored.toList = log
  | .disk position pending =>
    ∃ content, d.files.lookup a.name = some content ∧ position = content.size ∧
      (content ++ pending).toList = log

/-- What an operation leaves of an area: its name, and all files but its own. -/
structure Continues (a : Area) (d : Directory) (a' : Area) (d' : Directory) : Prop where
  name : a'.name = a.name
  agree : Agree a.name d d'

namespace Continues

theorem refl (a : Area) (d : Directory) : Continues a d a d := ⟨rfl, .refl _ d⟩

theorem trans {a' a'' : Area} {d' d'' : Directory} (h : Continues a d a' d')
    (h' : Continues a' d' a'' d'') : Continues a d a'' d'' :=
  ⟨h'.name.trans h.name, h.agree.trans (h.name ▸ h'.agree)⟩

end Continues

theorem Keeps.of_agree (h : a.Keeps d log) {d' : Directory}
    (hd : d'.files.lookup a.name = d.files.lookup a.name) : a.Keeps d' log := by
  unfold Keeps at h ⊢
  split at h
  · exact h
  · obtain ⟨content, hl, hp, hc⟩ := h
    exact ⟨content, hd.trans hl, hp, hc⟩

theorem keeps_create (onDisk : Bool) (name : String) (d : Directory) :
    (create onDisk name d).1.Keeps (create onDisk name d).2 [] := by
  cases onDisk with
  | true => exact ⟨#[], Directory.lookup_create name d, rfl, rfl⟩
  | false => rfl

@[simp] theorem name_create (onDisk : Bool) (name : String) (d : Directory) :
    (create onDisk name d).1.name = name := by
  cases onDisk <;> rfl

theorem agree_create (onDisk : Bool) (name : String) (d : Directory) :
    Agree name d (create onDisk name d).2 := by
  cases onDisk with
  | true => exact Directory.agree_create name d
  | false => exact .refl name d

theorem agree_close (a : Area) (d : Directory) : Agree a.name d (a.close d) := by
  unfold close
  split
  · exact .refl _ d
  · exact Directory.agree_remove a.name d

theorem keeps_flush (h : a.Keeps d log) :
    (a.flush d).1.Keeps (a.flush d).2 log ∧ Continues a d (a.flush d).1 (a.flush d).2 ∧
      ∀ position pending, a.backing = .disk position pending →
        (a.flush d).2.content a.name = log.toArray ∧
          (a.flush d).1 = { a with backing := .disk log.length #[] } := by
  obtain ⟨name, backing, length, ranges⟩ := a
  cases backing with
  | memory stored => exact ⟨h, .refl _ d, fun _ _ hb => by cases hb⟩
  | disk position pending =>
    obtain ⟨content, hl, rfl, rfl⟩ := h
    have hw := Directory.lookup_writeAt hl pending
    refine ⟨⟨content ++ pending, hw, by simp, by simp⟩,
      ⟨rfl, Directory.agree_writeAt name d _ _⟩, fun _ _ _ => ⟨?_, by simp [flush]⟩⟩
    simp only [flush, Directory.content, hw]
    simp

theorem keeps_push (h : a.Keeps d log) (bytes : Bytes) :
    (a.push bytes d).1.Keeps (a.push bytes d).2 (log ++ bytes) ∧
      Continues a d (a.push bytes d).1 (a.push bytes d).2 ∧
        (a.push bytes d).1.length = a.length ∧ (a.push bytes d).1.ranges = a.ranges := by
  obtain ⟨name, backing, length, ranges⟩ := a
  cases backing with
  | memory stored =>
    obtain rfl : stored.toList = log := h
    exact ⟨by simp [push, Keeps], ⟨rfl, .refl name d⟩, rfl, rfl⟩
  | disk position pending =>
    simp only [push]
    -- a full buffer is flushed first, which leaves an area on disk with the same bytes
    generalize hstate : (if bufferSize - pending.size < bytes.length then
      flush ⟨name, .disk position pending, length, ranges⟩ d
      else (⟨name, .disk position pending, length, ranges⟩, d)) = state
    obtain ⟨position', pending', hs⟩ : ∃ position' pending',
        state.1 = ⟨name, .disk position' pending', length, ranges⟩ := by
      rw [← hstate]
      split <;> exact ⟨_, _, rfl⟩
    have hk : state.1.Keeps state.2 log ∧ Agree name d state.2 := by
      rw [← hstate]
      split
      · exact ⟨(keeps_flush h).1, (keeps_flush h).2.1.agree⟩
      · exact ⟨h, .refl name d⟩
    obtain ⟨b, d'⟩ := state
    obtain rfl : b = ⟨name, .disk position' pending', length, ranges⟩ := hs
    obtain ⟨⟨content, hl, rfl, rfl⟩, hagree⟩ := hk
    have hpushed : Keeps ⟨name, .disk content.size (pending' ++ bytes), length, ranges⟩ d'
        ((content ++ pending').toList ++ bytes) := ⟨content, hl, rfl, by simp⟩
    simp only
    split
    · obtain ⟨hk, hc, -⟩ := keeps_flush hpushed
      exact ⟨hk, ⟨hc.name, hagree.trans hc.agree⟩, rfl, rfl⟩
    · exact ⟨hpushed, ⟨rfl, hagree⟩, rfl, rfl⟩

theorem keeps_write (h : a.Keeps d log) (bytes : Bytes) :
    (a.write bytes d).1.Keeps (a.write bytes d).2 (log ++ bytes) ∧
      Continues a d (a.write bytes d).1 (a.write bytes d).2 ∧
        (a.write bytes d).1.length = a.length + bytes.length ∧
          (a.write bytes d).1.ranges = a.ranges := by
  obtain ⟨hk, hc, hl, hr⟩ := keeps_push h bytes
  exact ⟨hk, ⟨hc.name, hc.agree⟩, congrArg (· + bytes.length) hl, hr⟩

/-- Everything that was written is read. -/
theorem contents_eq (h : a.Keeps d log) :
    (a.contents d).1 = log ∧ Continues a d (a.contents d).2.1 (a.contents d).2.2 := by
  obtain ⟨name, backing, length, ranges⟩ := a
  cases backing with
  | memory stored => exact ⟨h, .refl _ d⟩
  | disk position pending =>
    obtain ⟨-, hc, hcontent⟩ := keeps_flush h
    have := (hcontent position pending rfl).1
    refine ⟨?_, ⟨rfl, hc.agree⟩⟩
    exact congrArg Array.toList this

theorem keeps_contents (h : a.Keeps d log) :
    (a.contents d).2.1.Keeps (a.contents d).2.2 log ∧
      (a.contents d).2.1.length = a.length ∧ (a.contents d).2.1.ranges = a.ranges := by
  obtain ⟨name, backing, length, ranges⟩ := a
  cases backing with
  | memory stored => exact ⟨h, rfl, rfl⟩
  | disk position pending =>
    obtain ⟨hk, -, hflush⟩ := keeps_flush h
    obtain ⟨hcontent, harea⟩ := hflush position pending rfl
    simp only at hcontent harea
    rw [harea] at hk
    simp only [contents, harea, hcontent, List.size_toArray]
    exact ⟨hk, trivial, trivial⟩

theorem keeps_read (h : a.Keeps d log) {handle : Handle} {offset length : Nat}
    (hr : a.ranges[handle]? = some (offset, length)) (hw : offset + length ≤ log.length) :
    (a.read handle d).1 = .ok ((log.drop offset).take length) ∧
      (a.read handle d).2.1.Keeps (a.read handle d).2.2 log ∧
        Continues a d (a.read handle d).2.1 (a.read handle d).2.2 ∧
          (a.read handle d).2.1.length = a.length ∧
            (a.read handle d).2.1.ranges = a.ranges := by
  obtain ⟨name, backing, total, ranges⟩ := a
  cases backing with
  | memory stored =>
    obtain rfl : stored.toList = log := h
    simp only [read, hr]
    exact ⟨by simp [List.extract], rfl, .refl _ d, trivial, trivial⟩
  | disk position pending =>
    obtain ⟨hk, hc, hflush⟩ := keeps_flush h
    obtain ⟨hcontent, harea⟩ := hflush position pending rfl
    have hextract : (log.toArray.extract offset (offset + length)).toList =
        (log.drop offset).take length := by simp [List.extract]
    have hlength : ¬((log.drop offset).take length).length < length := by
      rw [List.length_take, List.length_drop]
      omega
    simp only at hcontent harea
    simp only [read, hr, harea, hcontent, hextract, hlength, if_false, List.size_toArray]
    exact ⟨trivial, harea ▸ hk, ⟨rfl, hc.agree⟩, trivial, trivial⟩

/-! ## Payloads -/

structure Stages (a : Area) (d : Directory) (payloads : List Bytes) : Prop where
  keeps : a.Keeps d payloads.flatten
  length : a.length = payloads.flatten.length
  ranges : a.ranges.toList = payloads.mapIdx fun i payload =>
    (((payloads.map List.length).take i).sum, payload.length)

theorem stages_create (onDisk : Bool) (name : String) (d : Directory) :
    (create onDisk name d).1.Stages (create onDisk name d).2 [] := by
  refine ⟨keeps_create onDisk name d, ?_, ?_⟩ <;> cases onDisk <;> rfl

variable {payloads : List Bytes}

/-- An appended payload gets the next handle. -/
theorem stages_append (h : a.Stages d payloads) (payload : Bytes) :
    (a.append payload d).1 = payloads.length ∧
      (a.append payload d).2.1.Stages (a.append payload d).2.2 (payloads ++ [payload]) ∧
        Continues a d (a.append payload d).2.1 (a.append payload d).2.2 := by
  obtain ⟨hk, hc, hl, hr⟩ := keeps_write h.keeps payload
  have hsize : a.ranges.size = payloads.length := by
    rw [← Array.length_toList, h.ranges, List.length_mapIdx]
  refine ⟨?_, ⟨?_, ?_, ?_⟩, ⟨hc.name, hc.agree⟩⟩
  · exact (congrArg Array.size hr).trans hsize
  · rw [List.flatten_append, List.flatten_singleton]
    exact hk
  · rw [List.flatten_append, List.flatten_singleton, List.length_append, ← h.length]
    exact hl
  · show ((a.write payload d).1.ranges.push (a.length, payload.length)).toList = _
    rw [hr, Array.toList_push, h.ranges, List.mapIdx_append, h.length]
    congr 1
    · apply List.ext_getElem (by simp)
      intro i hi _
      have hi : i ≤ payloads.length := by simpa using (Nat.le_of_lt hi)
      simp [List.take_append_of_le_length, hi]
    · simp [List.length_flatten]

theorem read_eq (h : a.Stages d payloads) {handle : Handle} {payload : Bytes}
    (hp : payloads[handle]? = some payload) :
    (a.read handle d).1 = .ok payload ∧
      (a.read handle d).2.1.Stages (a.read handle d).2.2 payloads ∧
        Continues a d (a.read handle d).2.1 (a.read handle d).2.2 := by
  obtain ⟨hlt, rfl⟩ := List.getElem?_eq_some_iff.1 hp
  have hrange : a.ranges[handle]? =
      some (((payloads.map List.length).take handle).sum, payloads[handle].length) := by
    rw [← Array.getElem?_toList, h.ranges]
    simp [hlt]
  have hwithin : ((payloads.map List.length).take handle).sum + payloads[handle].length ≤
      payloads.flatten.length := by
    rw [← Section.sum_take_succ_lengths payloads hlt]
    exact Section.sum_take_lengths_le payloads _
  obtain ⟨hread, hk, hc, hl, hr⟩ := keeps_read h.keeps hrange hwithin
  refine ⟨hread.trans ?_, ⟨hk, hl.trans h.length, hr ▸ h.ranges⟩, hc⟩
  have hextract := Section.extract_flatten payloads hlt
  rw [Section.sum_take_succ_lengths payloads hlt] at hextract
  simpa using hextract

end Area

end RecordStore
