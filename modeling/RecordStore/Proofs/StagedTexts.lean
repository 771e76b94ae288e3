import RecordStore.Proofs.CanonicalTexts
import RecordStore.Proofs.JointRows

/-!
# Staged texts

A level stages the canonical text of each part that can be decoded, and skips the others. If the
schema is legible, this text is free of the delimiter that the part was free of, so no part that can
be decoded is lost on the way to the child.

## Main definitions

* `Schema.accepted` — the values of the chunks that can be decoded.
* `Schema.TextOf` — the text of a value that was decoded.

## Main statements

* `Schema.restage?_cases`, `Schema.restagePair?_cases` — what is staged of a part.
* `Schema.rows?_pair_of_some`, `Schema.rows?_pair_of_none` — the rows of a chunk of a pair.
-/

namespace RecordStore

namespace Schema

def accepted (s : Schema) (chunks : List Bytes) : List Value :=
  chunks.filterMap fun chunk => (decode s chunk).toOption

def TextOf (s : Schema) (value : Value) (text : Bytes) : Prop :=
  ∃ chunk, decode s chunk = .ok value ∧ s.Canonical chunk value text

variable {s : Schema} {d : UInt8}

theorem accepted_cons_of_ok {chunk : Bytes} {value : Value} (h : decode s chunk = .ok value)
    (chunks : List Bytes) : s.accepted (chunk :: chunks) = value :: s.accepted chunks :=
  List.filterMap_cons_some (toOption_eq_some.2 h)

theorem accepted_cons_of_none {chunk : Bytes} (h : (decode s chunk).toOption = none)
    (chunks : List Bytes) : s.accepted (chunk :: chunks) = s.accepted chunks :=
  List.filterMap_cons_none h

theorem accepted_singleton {chunk : Bytes} {value : Value} (h : decode s chunk = .ok value) :
    s.accepted [chunk] = [value] :=
  accepted_cons_of_ok h []

theorem length_accepted {chunks : List Bytes}
    (h : ∀ chunk ∈ chunks, ∃ value, decode s chunk = .ok value) :
    (s.accepted chunks).length = chunks.length := by
  induction chunks with
  | nil => rfl
  | cons chunk chunks ih =>
    obtain ⟨⟨value, hv⟩, h⟩ := List.forall_mem_cons.1 h
    rw [accepted_cons_of_ok hv, List.length_cons, List.length_cons, ih h]

theorem accepted_flat (node : FlatNode) (chunks : List Bytes) :
    (flat node).accepted chunks = (kept (node.decoded chunks)).map .flat := by
  rw [accepted, kept, FlatNode.decoded, List.filterMap_map, List.map_filterMap]
  apply List.filterMap_congr
  intro chunk _
  rw [decode]
  cases h : node.decode chunk <;> simp [h, Except.toOption, Except.map]

theorem malformed_flat (node : FlatNode) (chunk : Bytes) :
    (flat node).malformed chunk = missing (node.decoded [chunk]) := by
  have hdecode : (decode (flat node) chunk).toOption =
      (node.decode chunk).toOption.map Value.flat := by
    rw [decode]
    cases node.decode chunk <;> rfl
  rw [malformed, hdecode]
  exact missing_map Value.flat [_]

theorem TextOf.readable {value : Value} {text : Bytes} (h : s.TextOf value text) :
    ∃ again, decode s text = .ok again := by
  obtain ⟨_, -, ht⟩ := h
  exact ht.readable

/-- In the texts of values everything can be decoded. -/
theorem sum_malformed_texts {texts : List Bytes}
    (h : ∀ text ∈ texts, ∃ value, s.TextOf value text) : (texts.map s.malformed).sum = 0 := by
  apply List.sum_eq_zero
  rw [List.forall_mem_map]
  intro text hm
  obtain ⟨value, chunk, -, ht⟩ := h text hm
  exact ht.complete

/-! ## Parts -/

theorem canonical?_eq_none {chunk : Bytes} (h : (decode s chunk).toOption = none) :
    canonical? s chunk = none := by
  rw [canonical?]
  cases hd : decode s chunk with
  | ok value =>
    rw [hd] at h
    cases h
  | error => rfl

theorem restage?_of_none {delim chunk : Bytes} (h : (decode s chunk).toOption = none) :
    restage? s delim chunk = none := by
  rw [restage?, canonical?_eq_none h, Option.filter_none]

theorem canonical?_eq_some {chunk text : Bytes} {value : Value} (hd : decode s chunk = .ok value)
    (h : s.Canonical chunk value text) : canonical? s chunk = some text := by
  rw [canonical?, hd]
  simp only [h.encode_eq]
  rfl

theorem markOutside_singleton {inside : List Bytes} :
    MarkOutside [d] inside ↔ Bytes.isMark d = true ∧ [d] ∉ inside := by
  constructor
  · rintro ⟨b, hb, he, hout⟩
    obtain rfl : d = b := (List.cons.inj he).1
    exact ⟨hb, hout⟩
  · rintro ⟨hd, hout⟩
    exact ⟨d, hd, rfl, hout⟩

/-- A part that can be decoded is staged as the text of its value, and no other is staged. -/
theorem restage?_cases (hs : s.Marked Layout.Legible) (hd : MarkOutside [d] s.separators)
    {chunk : Bytes} (hfree : d ∉ chunk) :
    (∃ text value, restage? s [d] chunk = some text ∧ d ∉ text ∧ decode s chunk = .ok value ∧
      s.TextOf value text) ∨
    (restage? s [d] chunk = none ∧ (decode s chunk).toOption = none) := by
  obtain ⟨hmark, hout⟩ := markOutside_singleton.1 hd
  cases hv : (decode s chunk).toOption with
  | none => exact .inr ⟨restage?_of_none hv, rfl⟩
  | some value =>
    have hv := toOption_eq_some.1 hv
    obtain ⟨text, ht⟩ := exists_canonical hs hv
    have hclean : d ∉ text := ht.keepsMarks.not_mem hmark hout hfree
    refine .inl ⟨text, value, ?_, hclean, hv, chunk, hv, ht⟩
    rw [restage?, canonical?_eq_some hv ht]
    exact Option.filter_eq_some_iff.2 ⟨rfl, Records.delimitsCleanly_singleton hclean⟩

example : restage? (.flat ⟨⟨0, "l"⟩, .primitive .i32⟩) (Bytes.ofText ",") (Bytes.ofText " 007") =
    some (Bytes.ofText "7") := by decide +kernel

theorem restage?_eq_none_iff (hs : s.Marked Layout.Legible) (hd : MarkOutside [d] s.separators)
    {chunk : Bytes} (hfree : d ∉ chunk) :
    restage? s [d] chunk = none ↔ (decode s chunk).toOption = none := by
  refine ⟨fun hnone => ?_, restage?_of_none⟩
  rcases restage?_cases hs hd hfree with ⟨text, value, ht, -⟩ | ⟨-, hv⟩
  · cases hnone.symm.trans ht
  · exact hv

/-- What is staged of parts are texts of values, free of the delimiter of the parts. -/
theorem textOf_of_mem_staged (hs : s.Marked Layout.Legible) (hd : MarkOutside [d] s.separators)
    {pieces : List Bytes} (hfree : ∀ piece ∈ pieces, d ∉ piece) {text : Bytes}
    (h : text ∈ kept (pieces.map (restage? s [d]))) : d ∉ text ∧ ∃ value, s.TextOf value text := by
  obtain ⟨piece, hpiece, ht⟩ := List.mem_map.1 (mem_kept.1 h)
  rcases restage?_cases hs hd (hfree piece hpiece) with
    ⟨text', value, ht', hclean, -, htext⟩ | ⟨hnone, -⟩
  · obtain rfl := Option.some.inj (ht.symm.trans ht')
    exact ⟨hclean, value, htext⟩
  · cases hnone.symm.trans ht

/-! ## Pairs -/

variable {label : Label} {first second : Schema} {sep chunk : Bytes} {outer : Option Bytes}

/-- Whether an outer delimiter is a mark that neither a chunk nor the separators of a schema
have. -/
def OuterFree (s : Schema) (outer : Option Bytes) (chunk : Bytes) : Prop :=
  ∀ delim ∈ outer, ∃ d, delim = [d] ∧ MarkOutside [d] s.separators ∧ d ∉ chunk

theorem OuterFree.of_canonical {part text : Bytes} {value : Value} (h : s.OuterFree outer chunk)
    (hpart : part ⊆ chunk) (ht : s.Canonical part value text) : s.OuterFree outer text := by
  intro delim hm
  obtain ⟨d, rfl, hd, hfree⟩ := h delim hm
  obtain ⟨hmark, hout⟩ := markOutside_singleton.1 hd
  exact ⟨d, rfl, hd, (ht.keepsMarks.mono hpart).not_mem hmark hout hfree⟩

theorem outerFree_some (hd : MarkOutside [d] s.separators) (hfree : d ∉ chunk) :
    s.OuterFree (some [d]) chunk := by
  rintro _ ⟨⟩
  exact ⟨d, rfl, hd, hfree⟩

theorem OuterFree.not_mem (h : s.OuterFree (some [d]) chunk) : d ∉ chunk := by
  obtain ⟨_, ⟨⟩, -, hfree⟩ := h _ rfl
  exact hfree

theorem OuterFree.ne_nil (h : s.OuterFree outer chunk) : outer ≠ some [] := by
  rintro rfl
  obtain ⟨d, hd, -⟩ := h [] rfl
  cases hd

theorem OuterFree.delimitsCleanly {text : Bytes} (h : s.OuterFree outer text) :
    outer.all (Records.delimitsCleanly text) = true := by
  cases outer with
  | none => rfl
  | some delim =>
    obtain ⟨d, rfl, -, hfree⟩ := h delim rfl
    exact Records.delimitsCleanly_singleton hfree

theorem decode_pair_eq_none {left right : Bytes} (hcut : Bytes.cut? sep chunk = some (left, right))
    (h : (decode first left).toOption = none ∨ (decode second right).toOption = none) :
    (decode (pair label first second sep) chunk).toOption = none := by
  cases hd : decode (pair label first second sep) chunk with
  | error => rfl
  | ok value =>
    simp only [decode, splitPair, hcut, ok_bind, bind_eq_ok] at hd
    obtain ⟨leftItem, hl, rightItem, hr, -⟩ := hd
    simp [hl, hr, Except.toOption] at h

/-- A pair of which both sides can be decoded is staged as the texts of both, and no other is
staged. -/
theorem restagePair?_cases (hsep : MarkOutside sep first.separators)
    (hs₁ : first.Marked Layout.Legible) (hs₂ : second.Marked Layout.Legible)
    (houter : second.OuterFree outer chunk) :
    (∃ a b left right, restagePair? first second sep outer chunk = some (a, b) ∧
      decode (pair label first second sep) chunk = .ok (.pair left right) ∧
      first.TextOf left a ∧ (∀ q, sep = [q] → q ∉ a) ∧
      second.TextOf right b ∧ second.OuterFree outer b) ∨
    (restagePair? first second sep outer chunk = none ∧
      (decode (pair label first second sep) chunk).toOption = none) := by
  obtain ⟨q, -, rfl, -⟩ := id hsep
  cases hcut : Bytes.cut? [q] chunk with
  | none => exact .inr (by simp [restagePair?, decode, splitPair, hcut, Except.toOption])
  | some sides =>
    obtain ⟨left, right⟩ := sides
    have hfree := Bytes.not_mem_of_cut?_singleton hcut
    have hright : right ⊆ chunk := by
      rw [Bytes.eq_of_cut? hcut]
      exact List.subset_append_right _ _
    rcases restage?_cases hs₁ hsep hfree with ⟨a, leftItem, ha, hclean, hl, htext⟩ | ⟨ha, hv⟩
    · cases hr : (decode second right).toOption with
      | none =>
        refine .inr ⟨?_, decode_pair_eq_none hcut (.inr hr)⟩
        simp [restagePair?, splitPair, hcut, ha, canonical?_eq_none hr, Except.toOption]
      | some rightItem =>
        have hr := toOption_eq_some.1 hr
        obtain ⟨b, hb⟩ := exists_canonical hs₂ hr
        have houter' := houter.of_canonical hright hb
        refine .inl ⟨a, b, leftItem, rightItem, ?_, ?_, htext, ?_, ⟨right, hr, hb⟩, houter'⟩
        · simp [restagePair?, splitPair, hcut, ha, canonical?_eq_some hr hb,
            houter'.delimitsCleanly, Except.toOption]
        · simp [decode, splitPair, hcut, hl, hr]
        · rintro _ ⟨⟩
          exact hclean
    · refine .inr ⟨?_, decode_pair_eq_none hcut (.inl hv)⟩
      simp [restagePair?, splitPair, hcut, ha, Except.toOption]

/-- A pair that is staged has the rows of its two texts side by side. -/
theorem rows?_pair_of_some {q : UInt8} {a b : Bytes} {left right : Value} {skipped skipped' : ℕ}
    (h : restagePair? first second [q] outer chunk = some (a, b)) (ha : q ∉ a)
    (hb : second.OuterFree outer b) (hleft : first.rows? (some [q]) [a] = some ([left], skipped))
    (hright : second.rows? outer [b] = some ([right], skipped')) :
    (pair label first second [q]).rows? outer [chunk] =
      some ([.pair left right], skipped + skipped') := by
  have hsplit : Records.split [q] (staged [q] [a]) = [a] :=
    Records.split_staged_singleton (by simpa using ha)
  have hsplit' : Records.splitOptional outer (staged (outer.getD []) [b]) = [b] := by
    cases outer with
    | none => simp [Records.splitOptional, staged]
    | some delim =>
      obtain ⟨d, rfl, -, hfree⟩ := hb delim rfl
      exact Records.split_staged_singleton (by simpa using hfree)
  simp [rows?_of_pair, h, kept, hsplit, hleft, hsplit', hright, missing]

theorem rows?_pair_of_none (hsep : sep ≠ []) (h : restagePair? first second sep outer chunk = none)
    (hs₁ : first.Separated) (hs₂ : second.Separated) (houter : outer ≠ some []) :
    (pair label first second sep).rows? outer [chunk] = some ([], 1) := by
  obtain ⟨delim, hne, hdelim⟩ : ∃ delim, delim ≠ [] ∧
      (if outer = none then some sep else outer) = some delim := by
    cases outer with
    | none => exact ⟨sep, hsep, rfl⟩
    | some delim => exact ⟨delim, fun he => houter (congrArg some he), rfl⟩
  simp [rows?_of_pair, h, kept, missing, staged, Records.split_nil hsep, rows?_nil hs₁ hsep, hdelim,
    Records.splitOptional, Records.split_nil hne, rows?_nil hs₂ hne]

end Schema

end RecordStore
