import Mathlib.Data.List.TakeWhile
import RecordStore.Records.Portions
import RecordStore.Proofs.CleanRecords

/-!
# Records do not depend on portions

However an input hands out its bytes, its records are those of the whole input: it is cut at the
leftmost occurrences of the delimiter that do not overlap. While a record is gathered the delimiter
has not occurred, and it ends in its last byte, so it is met exactly when it first occurs.

## Main definitions

* `PortionReader.view` — a reader without regard to portions.
* `Records.EndsAt` — a record that its delimiter ends.
* `Records.SplitsAs` — records that an input is split into.

## Main statements

* `PortionReader.next_view` — a read gives what it gives of the whole input.
* `Records.splitsAs_iff` — an input is split in one way only.
* `PortionReader.records_of_portions` — what is read of any input, time after time.
* `Records.split_staged_iff`, `PortionReader.payloads_of_portions` — staged payloads are read back
  one for one exactly if each delimits cleanly.
-/

namespace RecordStore

/-! ## Portions -/

namespace Supply

theorem notMem_front {last : UInt8} (s : Supply) : last ∉ s.portion.takeWhile (· != last) :=
  fun hm => by simpa using List.mem_takeWhile_imp hm

/-- Bytes are taken up to the byte, or to the end if it does not occur. -/
theorem readUntil_cases (last : UInt8) (s : Supply) :
    (∃ front, (s.readUntil last).1 = front ++ [last] ∧ last ∉ front) ∨
      (s.readUntil last).2.rest = [] ∧ last ∉ (s.readUntil last).1 := by
  fun_induction readUntil last s with
  | case1 s h => exact .inr ⟨h, List.not_mem_nil⟩
  | case2 s h front b back hb =>
    have hlast : b = last := by
      have := List.head?_dropWhile_not (· != last) s.portion
      simpa [hb] using this
    exact .inl ⟨front, by rw [hlast], notMem_front s⟩
  | case3 s h front hb this taken s' hs ih =>
    rw [hs] at ih
    rcases ih with ⟨more, rfl, hm⟩ | ⟨hrest, hm⟩
    · refine .inl ⟨front ++ more, (List.append_assoc ..).symm, ?_⟩
      exact List.not_mem_append (notMem_front s) hm
    · exact .inr ⟨hrest, List.not_mem_append (notMem_front s) hm⟩

/-- The byte is the last of those that are taken, if it is one of them. -/
theorem notMem_dropLast (last : UInt8) (s : Supply) : last ∉ (s.readUntil last).1.dropLast := by
  rcases s.readUntil_cases last with ⟨front, hfront, hnot⟩ | ⟨-, hnot⟩
  · rwa [hfront, List.dropLast_concat]
  · exact fun hm => hnot (List.dropLast_subset _ hm)

theorem readAll_eq (s : Supply) : s.readAll.1 = s.rest ∧ s.readAll.2.rest = [] := by
  fun_induction readAll s with
  | case1 s h => exact ⟨h.symm, h⟩
  | case2 s h this taken s' hs ih =>
    rw [hs] at ih
    obtain ⟨rfl, hrest⟩ := ih
    exact ⟨s.portion_append, hrest⟩

end Supply

/-! ## Occurrences -/

section

variable {delim : Bytes}

theorem ne_nil_of_getLast? {last : UInt8} (h : delim.getLast? = some last) : delim ≠ [] := by
  rintro rfl
  cases h

/-- Bytes without the last byte of a delimiter cannot complete it. -/
theorem not_infix_append {buffer front : Bytes} {last : UInt8}
    (hlast : delim.getLast? = some last) (hb : ¬delim <:+: buffer) (hf : last ∉ front) :
    ¬delim <:+: buffer ++ front := by
  obtain ⟨init, rfl⟩ := List.getLast?_eq_some_iff.1 hlast
  rintro ⟨before, after, h⟩
  rcases List.append_eq_append_iff.1 h with ⟨m, hbuffer, -⟩ | ⟨m, hm, hfront⟩
  · exact hb ⟨before, m, hbuffer.symm⟩
  · rcases List.eq_nil_or_concat m with rfl | ⟨m, b, rfl⟩
    · exact hb ⟨before, [], by rwa [List.append_nil] at hm ⊢⟩
    · rw [List.concat_eq_append, ← List.append_assoc, ← List.append_assoc] at hm
      obtain ⟨-, rfl⟩ := List.append_inj' hm rfl |>.imp_right List.singleton_inj.1
      exact hf (by simp [hfront])

/-- An occurrence that the last byte completes stands at the end. -/
theorem suffix_of_infix_of_dropLast {bytes : Bytes} (h : delim <:+: bytes)
    (hn : ¬delim <:+: bytes.dropLast) : delim <:+ bytes := by
  rcases List.eq_nil_or_concat bytes with rfl | ⟨front, b, rfl⟩
  · exact absurd h hn
  · rw [List.concat_eq_append, List.dropLast_concat] at hn
    rw [List.concat_eq_append] at h ⊢
    exact (List.infix_concat_iff.1 h).resolve_right hn

end

theorem Bytes.cut?_eq_none_iff {needle hay : Bytes} :
    cut? needle hay = none ↔ ¬needle <:+: hay := by
  induction hay with
  | nil => simp [cut?_nil]
  | cons b hay ih =>
    rw [cut?_cons, List.infix_cons_iff, ← List.isPrefixOf_iff_prefix, not_or, ← ih]
    split <;> simp_all

/-- What is found is the first occurrence. -/
theorem Bytes.find?_le {needle before after : Bytes} {offset : Nat}
    (h : find? needle (before ++ needle ++ after) = some offset) : offset ≤ before.length := by
  induction before generalizing offset with
  | nil =>
    cases hhay : [] ++ needle ++ after with
    | nil => grind [find?_nil]
    | cons b rest =>
      rw [hhay, find?_cons, if_pos] at h
      · exact Nat.le_of_eq (Option.some.inj h).symm
      · rw [← hhay, List.nil_append]
        exact List.isPrefixOf_iff_prefix.2 (List.prefix_append ..)
  | cons b before ih =>
    rw [List.cons_append, List.cons_append, find?_cons] at h
    split at h
    · exact Option.some.inj h ▸ Nat.zero_le _
    · obtain ⟨n, hn, rfl⟩ := Option.map_eq_some_iff.1 h
      exact Nat.succ_le_succ (ih hn)

namespace Records

/-- The delimiter behind a record occurs at its end alone. -/
def EndsAt (delim record : Bytes) : Prop :=
  ∀ before after, record ++ delim = before ++ delim ++ after → after = []

theorem endsAt_of_not_infix_dropLast {delim record : Bytes}
    (h : ¬delim <:+: (record ++ delim).dropLast) : EndsAt delim record := by
  intro before after heq
  rcases List.eq_nil_or_concat after with rfl | ⟨front, b, rfl⟩
  · rfl
  · refine absurd ⟨before, front, ?_⟩ h
    rw [heq, List.concat_eq_append, ← List.append_assoc, List.dropLast_concat]

/-- The delimiter at which an input is cut ends the first record. -/
theorem endsAt_of_cut? {delim input record rest : Bytes}
    (h : Bytes.cut? delim input = some (record, rest)) : EndsAt delim record := by
  intro before after heq
  have hinput : input = before ++ delim ++ (after ++ rest) := by
    rw [Bytes.eq_of_cut? h, heq, List.append_assoc _ after]
  obtain ⟨offset, hfind, hsides⟩ := Option.map_eq_some_iff.1 h
  have hle := Bytes.find?_le (hinput ▸ hfind)
  have hrecord := congrArg (List.length ∘ Prod.fst) hsides
  have hlength := congrArg List.length heq
  simp only [Function.comp_apply, List.length_take, List.length_append] at hrecord hlength
  exact List.length_eq_zero_iff.1 (by omega)

/-- A record delimits cleanly if the delimiter behind it ends it. -/
theorem delimitsCleanly_iff_endsAt {delim record : Bytes} (hd : delim ≠ []) :
    delimitsCleanly record delim = true ↔ EndsAt delim record := by
  rw [delimitsCleanly_iff hd]
  constructor
  · intro h
    have hcut := @Bytes.cut?_of_find? delim record [] h
    exact endsAt_of_cut? hcut
  · intro h
    cases hcut : Bytes.cut? delim (record ++ delim) with
    | none => exact absurd (List.suffix_append ..).isInfix (Bytes.cut?_eq_none_iff.1 hcut)
    | some sides =>
      obtain ⟨before, after⟩ := sides
      have heq := Bytes.eq_of_cut? hcut
      obtain rfl := h before after heq
      obtain rfl : record = before := List.append_cancel_right (by rwa [List.append_nil] at heq)
      obtain ⟨offset, hfind, hsides⟩ := Option.map_eq_some_iff.1 hcut
      have hrecord := congrArg (List.length ∘ Prod.fst) hsides
      have := List.length_pos_iff.2 hd
      simp only [Function.comp_apply, List.length_take, List.length_append] at hrecord
      rw [hfind, show offset = record.length by omega]

end Records

namespace RecordReader

theorem done_of_next_eq_none {r r' : RecordReader} (h : r.next = (none, r')) : r'.done = true := by
  unfold next at h
  grind [finish]

theorem toList_of_done {r : RecordReader} (h : r.done = true) : r.toList = [] := by
  rw [toList]
  split <;> simp_all [next]

end RecordReader

/-! ## Ways to split an input -/

namespace Records

/-- The records that an input is split into: the delimiter ends each record, but for a last one
that has bytes and no delimiter in it or behind it. -/
def SplitsAs (delim input : Bytes) (records : List Bytes) : Prop :=
  (staged delim records = input ∧ ∀ record ∈ records, EndsAt delim record) ∨
    ∃ whole tail, records = whole ++ [tail] ∧ staged delim records = input ++ delim ∧
      (∀ record ∈ whole, EndsAt delim record) ∧ tail ≠ [] ∧ ¬delim <:+: tail

theorem staged_concat (delim : Bytes) (whole : List Bytes) (tail : Bytes) :
    staged delim (whole ++ [tail]) = staged delim whole ++ tail ++ delim := by
  simp [staged]

/-- One more record may stand in front. -/
theorem SplitsAs.cons {delim record rest : Bytes} {records : List Bytes}
    (h : SplitsAs delim rest records) (hr : EndsAt delim record) :
    SplitsAs delim (record ++ delim ++ rest) (record :: records) := by
  rcases h with ⟨hrest, hall⟩ | ⟨whole, tail, rfl, hrest, hall, hne, htail⟩
  · exact .inl ⟨by rw [staged_cons, hrest], List.forall_mem_cons.2 ⟨hr, hall⟩⟩
  · refine .inr ⟨record :: whole, tail, rfl, ?_, List.forall_mem_cons.2 ⟨hr, hall⟩, hne, htail⟩
    rw [staged_cons, hrest, List.append_assoc _ rest]

theorem splitsAs_split {delim : Bytes} (hd : delim ≠ []) (input : Bytes) :
    SplitsAs delim input (split delim input) := by
  induction hlength : input.length using Nat.strongRecOn generalizing input with
  | ind length ih =>
  rw [split_eq hd]
  cases hcut : Bytes.cut? delim input with
  | some sides =>
    have hrest := ih _ (hlength ▸ Bytes.length_lt_of_cut? hd hcut) sides.2 rfl
    rw [Bytes.eq_of_cut? hcut]
    exact hrest.cons (endsAt_of_cut? hcut)
  | none =>
    cases input with
    | nil => exact .inl ⟨rfl, List.forall_mem_nil _⟩
    | cons b input =>
      exact .inr ⟨[], b :: input, rfl, staged_concat delim [] _, List.forall_mem_nil _,
        List.cons_ne_nil _ _, Bytes.cut?_eq_none_iff.1 hcut⟩

/-- An input is split in one way only. -/
theorem splitsAs_iff {delim : Bytes} (hd : delim ≠ []) {input : Bytes} {records : List Bytes} :
    SplitsAs delim input records ↔ records = split delim input := by
  refine ⟨?_, fun h => h ▸ splitsAs_split hd input⟩
  have hclean {texts : List Bytes} (h : ∀ text ∈ texts, EndsAt delim text) :
      ∀ text ∈ texts, delimitsCleanly text delim = true :=
    fun text hm => (delimitsCleanly_iff_endsAt hd).2 (h text hm)
  rintro (⟨rfl, hall⟩ | ⟨whole, tail, rfl, hinput, hall, hne, htail⟩)
  · exact (split_staged hd (hclean hall)).symm
  · rw [staged_concat] at hinput
    obtain rfl := List.append_cancel_right hinput
    rw [split_staged_append hd (hclean hall), split_eq hd tail, Bytes.cut?_eq_none_iff.2 htail]
    simp [hne]

/-- Without a delimiter the input is one record. -/
theorem split_without (input : Bytes) : split [] input = [input] := by
  have hnext : (RecordReader.start [] input).next =
      (some input, (RecordReader.start [] input).finish) := rfl
  have hfinish : (RecordReader.start [] input).finish.toList = [] :=
    RecordReader.toList_of_done rfl
  rw [split, RecordReader.toList]
  split <;> simp_all

end Records

/-! ## Reads in turn -/

theorem readNth_congr {σ τ α : Type} {next : σ → Option α × σ} {next' : τ → Option α × τ}
    (view : σ → τ) (h : ∀ s, next' (view s) = ((next s).1, view (next s).2)) (n : Nat) (s : σ) :
    readNth next n s = readNth next' n (view s) := by
  induction n generalizing s with
  | zero => rw [readNth, readNth, h]
  | succ n ih => rw [readNth, readNth, h, ih]

/-- The reads of a whole input give its records, and nothing ever after. -/
theorem RecordReader.readNth_eq (n : Nat) (r : RecordReader) :
    readNth RecordReader.next n r = r.toList[n]? := by
  induction n generalizing r with
  | zero =>
    rw [readNth, toList]
    split <;> simp [*]
  | succ n ih =>
    rw [readNth, ih]
    conv => rhs; rw [toList]
    split
    · simp [*]
    · rename_i r' hnext
      rw [hnext, toList_of_done (done_of_next_eq_none hnext)]
      rfl

namespace PortionReader

def view (r : PortionReader) : RecordReader := ⟨r.delim, r.supply.rest, r.done⟩

/-- What is gathered is cut off at the first delimiter, if it is not in the bytes that were taken
before. -/
theorem gather_view {r : PortionReader} {last : UInt8} (hlast : r.delim.getLast? = some last)
    {buffer : Bytes} (hb : ¬r.delim <:+: buffer) :
    ((r.gather last buffer).1, (r.gather last buffer).2.view) =
      match Bytes.cut? r.delim (buffer ++ r.supply.rest) with
      | some (record, rest) => (some record, { r.view with rest })
      | none =>
        (if (buffer ++ r.supply.rest).isEmpty then none else some (buffer ++ r.supply.rest),
          r.view.finish) := by
  have happend (r : PortionReader) := r.supply.append_readUntil last
  -- The delimiter is not among the bytes taken so far, but for the last of them.
  have hbefore {r : PortionReader} (hlast : r.delim.getLast? = some last) {buffer : Bytes}
      (hb : ¬r.delim <:+: buffer) {b : UInt8} {taken : Bytes} {supply : Supply}
      (hread : r.supply.readUntil last = (b :: taken, supply)) :
      ¬r.delim <:+: (buffer ++ b :: taken).dropLast := by
    have hnot := r.supply.notMem_dropLast last
    rw [hread] at hnot
    rw [List.dropLast_append_cons]
    exact not_infix_append hlast hb hnot
  fun_induction gather r last buffer with
  | case1 r buffer supply hread =>
    obtain ⟨hend, -⟩ := (r.supply.readUntil_cases last).resolve_left (by simp [hread])
    have hsupply : supply.rest = [] := by simpa [hread] using hend
    have hrest : r.supply.rest = [] := by
      rw [← happend r, hread, List.nil_append, hsupply]
    rw [hrest, List.append_nil, Bytes.cut?_eq_none_iff.2 hb]
    simp [view, RecordReader.finish, hsupply]
  | case2 r buffer b taken supply hread more hsuffix =>
    obtain ⟨record, hrecord⟩ := List.isSuffixOf_iff_suffix.1 hsuffix
    have hrest : buffer ++ r.supply.rest = record ++ r.delim ++ supply.rest := by
      rw [hrecord, ← happend r, hread, ← List.append_assoc]
    have hends : Records.EndsAt r.delim record :=
      Records.endsAt_of_not_infix_dropLast (hrecord ▸ hbefore hlast hb hread)
    have hne := ne_nil_of_getLast? hlast
    have hclean := (Records.delimitsCleanly_iff_endsAt hne).2 hends
    rw [hrest, Bytes.cut?_of_find? ((Records.delimitsCleanly_iff hne).1 hclean), ← hrecord]
    simp [view]
  | case3 r buffer b taken supply hread more hsuffix ih =>
    have hrest : buffer ++ r.supply.rest = more ++ supply.rest := by
      rw [← happend r, hread, ← List.append_assoc]
    rw [hrest]
    refine ih hlast fun hinfix => hsuffix ?_
    have hends := suffix_of_infix_of_dropLast hinfix (hbefore hlast hb hread)
    exact List.isSuffixOf_iff_suffix.2 hends

/-- However the input is handed out, a read gives what it gives of the whole input. -/
theorem next_view (r : PortionReader) : r.view.next = (r.next.1, r.next.2.view) := by
  cases hdone : r.done with
  | true => simp [RecordReader.next, next, view, hdone]
  | false =>
    cases hlast : r.delim.getLast? with
    | none =>
      obtain ⟨hread, hrest⟩ := r.supply.readAll_eq
      have hempty : r.delim = [] := List.getLast?_eq_none_iff.1 hlast
      simp [RecordReader.next, next, view, hdone, hempty, hread, hrest, RecordReader.finish]
    | some last =>
      have hne := ne_nil_of_getLast? hlast
      have hgather := @gather_view r last hlast [] (by simpa using hne)
      rw [next, if_neg (by simp [hdone]), hlast, hgather]
      simp only [RecordReader.next, view, hdone, List.isEmpty_eq_false_iff.2 hne, List.nil_append]
      cases Bytes.cut? r.delim r.supply.rest <;> rfl

/-- However an input is handed out, its reads give the records of the whole input in turn, and
nothing from then on. They are the only way to split the input, and the input itself if there is no
delimiter. -/
theorem records_of_portions (delim : Bytes) (supply : Supply) :
    (∀ n, readNth next n (start delim supply) = (Records.split delim supply.rest)[n]?) ∧
      (delim ≠ [] → ∀ records, Records.SplitsAs delim supply.rest records ↔
        records = Records.split delim supply.rest) ∧
        (delim = [] → Records.split delim supply.rest = [supply.rest]) := by
  refine ⟨fun n => ?_, fun hd records => Records.splitsAs_iff hd, ?_⟩
  · rw [readNth_congr view next_view, RecordReader.readNth_eq]
    rfl
  · rintro rfl
    exact Records.split_without _

/-- An input is cut at the first of two occurrences that overlap, also if it comes byte by byte. -/
theorem records_of_overlapping_sample :
    (∀ n, readNth next n (start (Bytes.ofText "aa") ⟨Bytes.ofText "xaaay", fun _ => 0⟩) =
      [Bytes.ofText "x", Bytes.ofText "ay"][n]?) ∧
    Bytes.ofText "aa" ≠ [] ∧ (∀ records,
      Records.SplitsAs (Bytes.ofText "aa") (Bytes.ofText "xaaay") records ↔
        records = [Bytes.ofText "x", Bytes.ofText "ay"]) ∧
    ∀ n, readNth next n (start [] ⟨Bytes.ofText "abc", fun _ => 1⟩) = [Bytes.ofText "abc"][n]? := by
  have hsplit : Records.split (Bytes.ofText "aa") (Bytes.ofText "xaaay") =
      [Bytes.ofText "x", Bytes.ofText "ay"] := by cbv
  have hne : Bytes.ofText "aa" ≠ [] := by decide
  obtain ⟨hreads, hsplits, -⟩ :=
    records_of_portions (Bytes.ofText "aa") ⟨Bytes.ofText "xaaay", fun _ => 0⟩
  obtain ⟨hwhole, -, hone⟩ := records_of_portions [] ⟨Bytes.ofText "abc", fun _ => 1⟩
  refine ⟨?_, hne, ?_, ?_⟩
  · rwa [hsplit] at hreads
  · have := hsplits hne
    rwa [hsplit] at this
  · rwa [hone rfl] at hwhole

/-- The delimiter behind a last record may overlap with it. Then nothing that puts the input
together is ended by the delimiter record by record, so the last record has to be let off; and if
nothing is asked of it, the input is split in more than one way. -/
theorem overlapping_tail_is_not_ended :
    (∀ n, readNth next n (start (Bytes.ofText "aa") ⟨Bytes.ofText "xa", fun _ => 0⟩) =
      [Bytes.ofText "xa"][n]?) ∧
    (∀ records,
      staged (Bytes.ofText "aa") records = Bytes.ofText "xa" ∨
          staged (Bytes.ofText "aa") records = Bytes.ofText "xa" ++ Bytes.ofText "aa" →
        ∃ record ∈ records, ¬Records.EndsAt (Bytes.ofText "aa") record) ∧
    ∀ records ∈ [[Bytes.ofText "a,b"], [Bytes.ofText "a", Bytes.ofText "b"]],
      staged (Bytes.ofText ",") records = Bytes.ofText "a,b" ++ Bytes.ofText "," ∧
        (∀ record ∈ records.dropLast, Records.EndsAt (Bytes.ofText ",") record) ∧
          ∀ record ∈ records.getLast?, record ≠ [] := by
  have hne : Bytes.ofText "aa" ≠ [] := by decide
  have hsplit (input : Bytes) {records : List Bytes}
      (h : staged (Bytes.ofText "aa") records = input)
      (hall : ∀ record ∈ records, Records.EndsAt (Bytes.ofText "aa") record) :
      Records.split (Bytes.ofText "aa") input = records :=
    h ▸ Records.split_staged hne fun record hm =>
      (Records.delimitsCleanly_iff_endsAt hne).2 (hall record hm)
  have hshort : Records.split (Bytes.ofText "aa") (Bytes.ofText "xa") = [Bytes.ofText "xa"] := by
    cbv
  have hlong : Records.split (Bytes.ofText "aa") (Bytes.ofText "xa" ++ Bytes.ofText "aa") =
      [Bytes.ofText "x", Bytes.ofText "a"] := by cbv
  refine ⟨fun n => ?_, fun records h => ?_, ?_⟩
  · rw [readNth_congr view next_view, RecordReader.readNth_eq, ← hshort]
    rfl
  · by_contra hended
    simp only [not_exists, not_and, not_not] at hended
    rcases h with h | h
    · obtain rfl := hshort.symm.trans (hsplit _ h hended)
      revert h
      decide
    · obtain rfl := hlong.symm.trans (hsplit _ h hended)
      revert h
      decide
  · have hcomma : Records.EndsAt (Bytes.ofText ",") (Bytes.ofText "a") :=
      (Records.delimitsCleanly_iff_endsAt (by decide)).1 (by decide)
    intro records hm
    simp only [List.mem_cons, List.not_mem_nil, or_false] at hm
    rcases hm with rfl | rfl
    · exact ⟨by decide, by simp, by decide⟩
    · exact ⟨by decide, by simpa using hcomma, by decide⟩

end PortionReader

/-! ## Staged payloads -/

/-- Staged texts are split where they were put together exactly if each delimits cleanly. -/
theorem Records.split_staged_iff {delim : Bytes} (hd : delim ≠ []) {texts : List Bytes} :
    split delim (staged delim texts) = texts ↔
      ∀ text ∈ texts, delimitsCleanly text delim = true := by
  refine ⟨fun h => ?_, split_staged hd⟩
  induction texts with
  | nil => exact List.forall_mem_nil _
  | cons text texts ih =>
    rw [staged_cons, split_eq hd] at h
    cases hcut : Bytes.cut? delim (text ++ delim ++ staged delim texts) with
    | none => exact absurd ⟨text, staged delim texts, rfl⟩ (Bytes.cut?_eq_none_iff.1 hcut)
    | some sides =>
      obtain ⟨record, rest⟩ := sides
      rw [hcut] at h
      obtain ⟨rfl, hrest⟩ := List.cons.inj h
      obtain rfl := List.append_cancel_left (Bytes.eq_of_cut? hcut)
      have hclean := (delimitsCleanly_iff_endsAt hd).2 (endsAt_of_cut? hcut)
      exact List.forall_mem_cons.2 ⟨hclean, ih hrest⟩

namespace PortionReader

/-- The reads of an input give its records in turn, however it is handed out. -/
theorem readNth_start_eq_iff {delim : Bytes} {supply : Supply} {records : List Bytes} :
    (∀ n, readNth next n (start delim supply) = records[n]?) ↔
      Records.split delim supply.rest = records := by
  have hreads (n : Nat) :
      readNth next n (start delim supply) = (Records.split delim supply.rest)[n]? := by
    rw [readNth_congr view next_view, RecordReader.readNth_eq]
    rfl
  simp only [hreads, List.ext_getElem?_iff]

/-- A payload delimits cleanly exactly if it is all that is read of it and the delimiter behind it.
Payloads with the delimiter behind each are read back one for one exactly if each delimits cleanly,
however they are handed out. -/
theorem payloads_of_portions {delim : Bytes} (hd : delim ≠ []) (lengths : Nat → Nat) :
    (∀ payload, Records.delimitsCleanly payload delim = true ↔
      ∀ n, readNth next n (start delim ⟨payload ++ delim, lengths⟩) = [payload][n]?) ∧
    ∀ payloads, (∀ payload ∈ payloads, Records.delimitsCleanly payload delim = true) ↔
      ∀ n, readNth next n (start delim ⟨staged delim payloads, lengths⟩) = payloads[n]? := by
  have hall (payloads : List Bytes) :
      (∀ payload ∈ payloads, Records.delimitsCleanly payload delim = true) ↔
        ∀ n, readNth next n (start delim ⟨staged delim payloads, lengths⟩) = payloads[n]? := by
    rw [readNth_start_eq_iff, Records.split_staged_iff hd]
  refine ⟨fun payload => ?_, hall⟩
  have hone := hall [payload]
  rwa [List.forall_mem_singleton, staged, List.flatMap_singleton] at hone

/-- The end of a payload may be a part of the delimiter, and payloads may be empty. -/
theorem payloads_of_straddled_sample :
    Bytes.ofText "aab" ≠ [] ∧
    (∀ n, readNth next n (start (Bytes.ofText "aab") ⟨Bytes.ofText "aabxaaabaab", fun _ => 1⟩) =
      [[], Bytes.ofText "xa", []][n]?) ∧
    Records.delimitsCleanly (Bytes.ofText "aaba") (Bytes.ofText "aab") = false ∧
    ¬∀ n, readNth next n (start (Bytes.ofText "aab") ⟨Bytes.ofText "aabaaab", fun _ => 1⟩) =
      [Bytes.ofText "aaba"][n]? := by
  have hne : Bytes.ofText "aab" ≠ [] := by decide
  obtain ⟨hone, hall⟩ := payloads_of_portions hne fun _ => 1
  have hunclean : Records.delimitsCleanly (Bytes.ofText "aaba") (Bytes.ofText "aab") = false := by
    decide
  have hclean : ∀ payload ∈ [[], Bytes.ofText "xa", []],
      Records.delimitsCleanly payload (Bytes.ofText "aab") = true := by decide
  have hreads := (hall _).1 hclean
  refine ⟨hne, hreads, hunclean, fun h => ?_⟩
  have := (hone (Bytes.ofText "aaba")).2 h
  exact absurd this (by rw [hunclean]; decide)

end PortionReader

end RecordStore
