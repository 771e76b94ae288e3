import RecordStore.Proofs.SelfDelimiting
import RecordStore.Proofs.UniqueDerivations
import RecordStore.Proofs.WellFormedTrees

/-!
# Headers of sections

A section says how long its arguments and its body are, in two bytes and in eight. The arguments of
a node are part of the format, so those of a format of less than 65536 bytes fit. Nothing else keeps
them from being longer; of a length that does not fit the lowest digits are written, and what is
read back is another section.

## Main statements

* `Format.Parses.args_isInfix` — the arguments of a node are part of the format.
* `Container.fits_of_takeSection` — whatever is read as a section has lengths that fit.
* `Container.takeSection_write_iff` — which sections are read back.
-/

namespace RecordStore

theorem Bytes.length_ofChars_le {part text : List Char} (h : part <:+: text) :
    (ofChars part).length ≤ (ofChars text).length := by
  obtain ⟨front, back, rfl⟩ := h
  simp only [ofChars, List.flatMap_append, List.length_append]
  omega

/-! ## Arguments in formats -/

namespace Format

theorem toList_intercalate_string (args : List ArgText) :
    (",".intercalate (args.map ArgText.string)).toList =
      [','].intercalate (args.map (·.chars)) := by
  rw [String.toList_intercalate, List.map_map]
  simp [ArgText.string, Function.comp_def]

/-- The arguments stand in front of the parenthesis, with commas between them. -/
theorem isInfix_of_splitArgs? {text rest : List Char} {args : List String}
    (h : splitArgs? text = some (args, rest)) :
    (",".intercalate args).toList <:+: text ∧ rest <:+ text := by
  obtain ⟨derived, rfl, rfl⟩ := splitArgs?_eq_some_iff.1 h
  refine ⟨?_, (List.suffix_cons '(' rest).trans (List.suffix_append ..)⟩
  rw [toList_intercalate_string]
  cases derived with
  | nil => exact List.nil_infix
  | cons arg args =>
    rw [argsText_cons]
    exact (List.suffix_cons ',' _).isInfix.trans (List.prefix_append ..).isInfix

theorem isInfix_of_splitBody? {α : Type} {before : Char → α → α} {atEnd : α}
    {closing : Char × α → Bool} {text : List Char} {spots : List (Char × α)}
    (hs : spots <:+ (annotate before atEnd text).2) {body sep : List Char}
    (h : splitBody? (·.1) closing spots = some (body, sep)) : body <:+: text := by
  have hbody : body <+: spots.map (·.1) := ⟨')' :: sep, (eq_of_splitBody? h).symm⟩
  have hspots := hs.map (·.1)
  rw [map_fst_annotate] at hspots
  exact hbody.isInfix.trans hspots.isInfix

theorem VectorText.isInfix {text : List Char} {parts : VectorText}
    (h : VectorText.read? text = some parts) :
    (",".intercalate parts.args).toList <:+: text ∧ parts.element <:+: text := by
  obtain ⟨tail, rest, rfl, ha, hb⟩ := VectorText.exists_of_read? h
  obtain ⟨hargs, hrest⟩ := isInfix_of_splitArgs? ha
  have helement := isInfix_of_splitBody? List.suffix_rfl hb
  exact ⟨List.infix_cons hargs, List.infix_cons (helement.trans hrest.isInfix)⟩

theorem SetText.isInfix {text : List Char} {parts : SetText}
    (h : SetText.read? text = some parts) : (",".intercalate parts.args).toList <:+: text := by
  obtain ⟨c, tail, rest, rfl, -, ha, -⟩ := SetText.exists_of_read? h
  exact List.infix_cons (isInfix_of_splitArgs? ha).1

theorem MapText.isInfix {text : List Char} {parts : MapText}
    (h : MapText.read? text = some parts) :
    (",".intercalate parts.args).toList <:+: text ∧ parts.value <:+: text := by
  obtain ⟨c, tail, rest, rfl, -, ha, -, behind, hsplit, hb⟩ := MapText.exists_of_read? h
  obtain ⟨hargs, hrest⟩ := isInfix_of_splitArgs? ha
  have hsuffix := suffix_splitKey (annotate KeyPlaces.before .atMapEnd rest).2
  rw [hsplit] at hsuffix
  have hvalue := isInfix_of_splitBody? ((List.drop_suffix ..).trans hsuffix) hb
  exact ⟨List.infix_cons hargs, List.infix_cons (hvalue.trans hrest.isInfix)⟩

/-- The arguments of each node stand in the format. -/
theorem Parses.args_isInfix {text : List Char} {ordinal : ℕ} {s : Schema}
    (h : Parses text ordinal s) :
    ∀ node ∈ s.nodes, (",".intercalate node.ownArgs).toList <:+: text := by
  induction h with
  | flat hn => simp [Schema.nodes, Schema.ownArgs]
  | sequence hv he hs ih =>
    obtain ⟨hargs, helement⟩ := VectorText.isInfix hv
    exact List.forall_mem_cons.2 ⟨hargs, fun node hm => (ih node hm).trans helement⟩
  | set ht hk hs =>
    exact List.forall_mem_cons.2 ⟨SetText.isInfix ht, by simp [Schema.ownArgs]⟩
  | map hm hk hv hks hs ih =>
    obtain ⟨hargs, hvalue⟩ := MapText.isInfix hm
    exact List.forall_mem_cons.2 ⟨hargs, List.forall_mem_cons.2
      ⟨by simp [Schema.ownArgs], fun node hm => (ih node hm).trans hvalue⟩⟩
  | @pair first sep second ordinal start left right bytes hf hr hrun hs ih₁ ih₂ =>
    have hfirst : first <:+: pairText first sep second :=
      ⟨['P', '('], ')' :: sep ++ '(' :: second ++ [')'], by simp [pairText]⟩
    have hsecond : second <:+: pairText first sep second :=
      ⟨'P' :: '(' :: first ++ ')' :: sep ++ ['('], [')'], by simp [pairText]⟩
    refine List.forall_mem_cons.2 ⟨by simp [Schema.ownArgs], fun node hm => ?_⟩
    rcases List.mem_append.1 hm with hm | hm
    · exact (ih₁ node hm).trans hfirst
    · exact (ih₂ node hm).trans hsecond

end Format

theorem argsFit_of_parse {format : String} {s : Schema} (h : parse format = .ok s)
    (hshort : (Bytes.ofText format).length < 2 ^ 16) : s.ArgsFit := by
  intro node hm
  have := Bytes.length_ofChars_le ((parses_of_parse h).args_isInfix node hm)
  exact Nat.le_of_lt_succ (Nat.lt_of_le_of_lt this hshort)

/-! ## Sections -/

namespace Take

variable {n : ℕ} {c c' : Cursor}

theorem length_of_bytes {taken : Bytes} (h : Take.bytes n c = .ok (taken, c')) :
    taken.length = n := by
  rw [bytes_apply] at h
  split at h
  · cases h
  · obtain ⟨rfl, -⟩ := Prod.mk.inj (Except.ok.inj h)
    rw [List.length_take] at *
    omega

theorem number_lt {width : ℕ} (h : Take.number width c = .ok (n, c')) : n < 256 ^ width := by
  obtain ⟨taken, c₁, htaken, h⟩ := exists_of_bind h
  obtain ⟨rfl, -⟩ := Prod.mk.inj (Except.ok.inj h)
  rw [← length_of_bytes htaken]
  exact taken.toNat_lt

end Take

namespace Container

open Take (Reads)

/-- Whatever is read as a section has numbers and lengths that fit their fields. -/
theorem fits_of_takeSection {ordinal : ℕ} {raw : RawSection} {c c' : Cursor}
    (h : takeSection ordinal c = .ok (raw, c')) :
    ordinal < 2 ^ 32 ∧ (Bytes.ofText raw.args).length < 2 ^ 16 ∧ raw.body.length < wordLimit := by
  unfold takeSection at h
  obtain ⟨tag, c₁, -, h⟩ := Take.exists_of_bind h
  obtain ⟨found, c₂, hfound, h⟩ := Take.exists_of_bind h
  split at h
  · cases h
  rename_i hordinal
  obtain rfl := of_not_not hordinal
  obtain ⟨argsLength, c₃, hlength, h⟩ := Take.exists_of_bind h
  obtain ⟨text, c₄, htext, h⟩ := Take.exists_of_bind h
  cases hargs : Utf8.read? text with
  | none =>
    rw [hargs] at h
    cases h
  | some args =>
    rw [hargs] at h
    obtain ⟨args, c₄', hpure, h⟩ := Take.exists_of_bind h
    obtain ⟨rfl, rfl⟩ := Prod.mk.inj (Except.ok.inj hpure)
    obtain ⟨bodyLength, c₅, hbody, h⟩ := Take.exists_of_bind h
    obtain ⟨body, c₆, htaken, h⟩ := Take.exists_of_bind h
    obtain ⟨rfl, -⟩ := Prod.mk.inj (Except.ok.inj h)
    refine ⟨Take.number_lt hfound, ?_, ?_⟩
    · rw [Utf8.ofText_of_read? hargs, Take.length_of_bytes htext]
      exact Take.number_lt hlength
    · rw [Take.length_of_bytes htaken]
      exact Take.number_lt hbody

/-- Of arguments whose length is written as zero none are read back, and their first bytes are taken
for the length of the body. -/
theorem takeSection_write_eq_error {tag : Section.Tag} {ordinal : ℕ} {args : List String}
    {body digits back : Bytes} (ho : ordinal < 2 ^ 32)
    (htext : Bytes.ofText (",".intercalate args) = digits ++ back)
    (hmod : (digits ++ back).length % 256 ^ 2 = 0) (hdigits : digits.length = 8)
    (hlong : back.length + 8 + body.length < digits.toNat) :
    takeSection ordinal (.start (Section.write tag ordinal args body)) =
      .error (.truncated 15) := by
  have hnone (next : Bytes → Take RawSection) (position : ℕ) (rest : Bytes) :
      (Take.bytes 0 >>= next) ⟨position, rest⟩ = next [] ⟨position, rest⟩ :=
    (@Reads.bytes 0 [] rfl).bind_eq next position rest
  have hempty : Utf8.read? [] = some "" := Utf8.read?_ofText ""
  have hnumber : Reads (Take.number 8) digits digits.toNat := (Reads.bytes hdigits).map Bytes.toNat
  have hrest : (back ++ (Bytes.ofNat 8 body.length ++ body)).length < digits.toNat := by
    simp only [List.length_append, Bytes.length_ofNat]
    omega
  simp only [Section.write, htext, List.append_assoc, Cursor.start]
  unfold takeSection
  rw [(Reads.number_mod 1 _).bind_eq, (@Reads.number 4 _ ho).bind_eq]
  simp only [ne_eq, not_true_eq_false, if_false]
  rw [(Reads.number_mod 2 _).bind_eq, hmod, hnone, hempty]
  simp only
  rw [Take.bind_apply, Take.pure_apply]
  simp only
  rw [hnumber.bind_eq, Take.bind_apply, Take.bytes_eq_error hrest]
  simp [hdigits]

/-- What is written as a section is read back, with nothing taken from what follows, exactly if its
ordinal and the lengths of its arguments and of its body fit their fields. For a format of less than
65536 bytes all but the body does, whatever the arguments are. -/
theorem takeSection_write_iff (tag : Section.Tag) (ordinal : ℕ) (args : List String) (body : Bytes)
    (position : ℕ) (rest : Bytes) :
    (takeSection ordinal ⟨position, Section.write tag ordinal args body ++ rest⟩ =
        .ok (⟨tag.toNat, ",".intercalate args, body⟩,
          ⟨position + (Section.write tag ordinal args body).length, rest⟩) ↔
      ordinal < 2 ^ 32 ∧ (Bytes.ofText (",".intercalate args)).length < 2 ^ 16 ∧
        body.length < 2 ^ 64) ∧
    ∀ format s, parse format = .ok s → (Bytes.ofText format).length < 2 ^ 16 →
      body.length < 2 ^ 64 → ∀ node ∈ s.nodes,
        Reads (takeSection node.ordinal) (Section.write tag node.ordinal node.ownArgs body)
          ⟨tag.toNat, ",".intercalate node.ownArgs, body⟩ := by
  refine ⟨⟨fits_of_takeSection, ?_⟩, ?_⟩
  · rintro ⟨ho, ha, hb⟩
    exact reads_takeSection tag ho ha hb position rest
  · intro format s hp hshort hb node hm
    have hargs := Nat.lt_succ_of_le (argsFit_of_parse hp hshort node hm)
    have hsize := size_le_of_parse hp
    have hordinal := List.mem_map_of_mem (f := Schema.ordinal) hm
    rw [(numberedFrom_of_parse hp).ordinals, List.mem_range'_1] at hordinal
    exact reads_takeSection tag (by omega) hargs hb

end Container

def argumentSample (arg : Format.ArgText) : Format.Derivation :=
  .sequence [arg] (.flat (.single .i32 false)) (.single '\n' rfl)

theorem parse_argumentSample {arg : Format.ArgText} (h : '\\' ∉ arg.chars) :
    parse (String.ofList ('V' :: ',' :: arg.chars ++ ['(', 'l', ')', '\n'])) =
      .ok ((argumentSample arg).schema 0) := by
  have htext : 'V' :: ',' :: arg.chars ++ ['(', 'l', ')', '\n'] = (argumentSample arg).text := by
    simp [argumentSample, Format.Derivation.text, Format.argsText, Format.FlatDerivation.text,
      Format.FlatDerivation.single, Format.FlatDerivation.body, Format.FieldText.chars,
      Format.WeakText.empty, Format.SepText.single, Prim.code]
  rw [htext]
  refine parse_eq_ok.2 ⟨?_, rfl⟩
  rw [String.toList_ofList]
  refine Format.Derivation.parseAt_text _ ?_ 0
  rw [← htext]
  simp [h]

/-- The letter `A` in a row, `n + 1` times. -/
def longArgument (n : ℕ) : Format.ArgText where
  chars := List.replicate (n + 1) 'A'
  isArgChar_of_mem c hc := by
    rw [List.eq_of_mem_replicate hc]
    rfl
  ne_nil := List.cons_ne_nil _ _

theorem ofText_longArgument (n : ℕ) :
    Bytes.ofText (",".intercalate [(longArgument n).string]) = List.replicate (n + 1) 0x41 := by
  have hletter : String.utf8EncodeChar 'A' = [0x41] := rfl
  simp only [Bytes.ofText, Bytes.ofChars, String.intercalate_singleton, Format.ArgText.string,
    String.toList_ofList, longArgument, List.flatMap_replicate, hletter,
    List.flatten_replicate_singleton]

theorem slash_notMem_longArgument (n : ℕ) : '\\' ∉ (longArgument n).chars := fun hc => by
  cases List.eq_of_mem_replicate hc

/-- A short argument is read back, and so are two arguments in a section of another node. -/
theorem takeSection_write_of_shortArguments :
    (∃ s, parse (String.ofList ['V', ',', 'A', '(', 'l', ')', '\n']) = .ok s ∧ s ∈ s.nodes ∧
      Take.Reads (Container.takeSection s.ordinal)
        (Section.write .shape s.ordinal s.ownArgs (Section.shapeBody [1]))
        ⟨3, ",".intercalate s.ownArgs, Section.shapeBody [1]⟩) ∧
    7 < 2 ^ 32 ∧ (Bytes.ofText (",".intercalate ["A", "B"])).length < 2 ^ 16 ∧
    Container.takeSection 7 ⟨0, Section.write .pair 7 ["A", "B"] [1, 2] ++ [9]⟩ =
      .ok (⟨6, ",".intercalate ["A", "B"], [1, 2]⟩, ⟨20, [9]⟩) := by
  have hfits : (Bytes.ofText (",".intercalate ["A", "B"])).length < 2 ^ 16 := by decide
  have hshort : (Bytes.ofText (String.ofList ['V', ',', 'A', '(', 'l', ')', '\n'])).length <
      2 ^ 16 := by decide
  have hparse := parse_argumentSample (slash_notMem_longArgument 0)
  have hmem : (argumentSample (longArgument 0)).schema 0 ∈
      ((argumentSample (longArgument 0)).schema 0).nodes := List.mem_cons_self
  refine ⟨⟨_, hparse, hmem, ?_⟩, by decide, hfits, ?_⟩
  · exact (Container.takeSection_write_iff .shape 0 ["A"] (Section.shapeBody [1]) 0 []).2 _ _ hparse
      hshort (by decide) _ hmem
  · exact (Container.takeSection_write_iff .pair 7 ["A", "B"] [1, 2] 0 [9]).1.2
      ⟨by decide, hfits, by decide⟩

/-- Of the length 65536 two zero bytes are written, so that no argument is read back and the first
bytes of the argument are taken for the length of the body. -/
theorem takeSection_write_of_longArgument :
    ∃ s, parse (String.ofList ('V' :: ',' :: List.replicate 65536 'A' ++ ['(', 'l', ')', '\n'])) =
        .ok s ∧
      s.ordinal = 0 ∧ s.ownArgs = [String.ofList (List.replicate 65536 'A')] ∧
      Container.takeSection s.ordinal
          (.start (Section.write .shape s.ordinal s.ownArgs (Section.shapeBody [1]))) =
        .error (.truncated 15) := by
  have hchars : (longArgument 65535).chars = List.replicate 65536 'A' := by rw [longArgument]
  have hstring : (longArgument 65535).string = String.ofList (List.replicate 65536 'A') := by
    rw [Format.ArgText.string, hchars]
  have hargs : ((argumentSample (longArgument 65535)).schema 0).ownArgs =
      [(longArgument 65535).string] := rfl
  have hparse := parse_argumentSample (slash_notMem_longArgument 65535)
  rw [hchars] at hparse
  refine ⟨_, hparse, rfl, by rw [hargs, hstring], ?_⟩
  have htext := ofText_longArgument 65535
  rw [show 65535 + 1 = 8 + 65528 from rfl, List.replicate_add] at htext
  refine Container.takeSection_write_eq_error (Nat.two_pow_pos 32) htext ?_ rfl ?_
  · rw [List.length_append, List.length_replicate, List.length_replicate]
    decide
  · rw [List.length_replicate]
    decide

end RecordStore
