import Mathlib.Data.List.TakeWhile
import RecordStore.Proofs.Derivations
import RecordStore.Proofs.ParsedSchemas

/-!
# Readings of texts without escapes

In a text without backslashes each unit is a character, so units end at the first character that
is not one of its own. The places of the text are then found from what follows the units, and a
text is a type sequence exactly if it has a derivation as one.

## Main statements

* `Format.readUnits_of_ne` — units are a longest run of plain characters.
* `Format.between_annotate` — a text is read on where its first run is left.
* `Format.lead_between_iff` — what a type sequence in front of a text is.
* `Format.exists_flatDerivation`, `Format.parseFlat?_text` — flat nodes are read from derivations.
-/

namespace RecordStore.Format

/-! ## Runs -/

section

variable {α : Type} {p : α → Bool} {front back : List α}

theorem takeWhile_append_of_head (hf : ∀ a ∈ front, p a = true)
    (hb : ∀ a ∈ back.head?, p a = false) : (front ++ back).takeWhile p = front := by
  rw [List.takeWhile_append_of_pos hf]
  cases back with
  | nil => simp
  | cons a back => rw [List.takeWhile_cons_of_neg (by simp [hb a rfl]), List.append_nil]

theorem dropWhile_append_of_head (hf : ∀ a ∈ front, p a = true)
    (hb : ∀ a ∈ back.head?, p a = false) : (front ++ back).dropWhile p = back := by
  rw [List.dropWhile_append_of_pos hf]
  cases back with
  | nil => rfl
  | cons a back => exact List.dropWhile_cons_of_neg (by simp [hb a rfl])

end

/-! ## Units -/

section

variable {α : Type} {char : α → Char} {viable : α → Bool} (plain : Char → Bool)

theorem unitLength_of_ne {a : α} (ha : char a ≠ '\\') (rest : List α) :
    unitLength char plain viable (a :: rest) = if plain (char a) then 1 else 0 := by
  rcases rest with _ | ⟨b, _ | ⟨c, _ | ⟨d, rest⟩⟩⟩ <;> simp [unitLength, ha]

/-- Without escapes, units are a longest run of plain characters. -/
theorem readUnits_of_ne {text : List α} (h : ∀ a ∈ text, char a ≠ '\\') :
    readUnits char plain viable text =
      ((text.takeWhile fun a => plain (char a)).map char,
        text.dropWhile fun a => plain (char a)) := by
  induction text with
  | nil => rw [readUnits]; rfl
  | cons a rest ih =>
    obtain ⟨ha, hrest⟩ := List.forall_mem_cons.1 h
    rw [readUnits]
    cases hp : plain (char a) <;> simp [unitLength_of_ne plain ha, hp, ih hrest]

/-- Without escapes, greedy reading is the same. -/
theorem readGreedy_of_notMem {text : List Char} (h : '\\' ∉ text) :
    readGreedy plain text = (text.takeWhile plain, text.dropWhile plain) := by
  have hchars : ∀ c ∈ text, id c ≠ '\\' := fun c hc => ne_of_mem_of_not_mem hc h
  rw [readGreedy, readUnits_of_ne plain hchars]
  simp

end

/-! ## Places -/

section

variable {α : Type} (before : Char → α → α) (atEnd : α) (p : Char → Bool)

theorem map_takeWhile_annotate (text : List Char) :
    ((annotate before atEnd text).2.takeWhile fun spot => p spot.1).map (·.1) =
      text.takeWhile p := by
  conv_rhs => rw [← map_fst_annotate before atEnd text, List.takeWhile_map]
  rfl

theorem dropWhile_annotate (text : List Char) :
    (annotate before atEnd text).2.dropWhile (fun spot => p spot.1) =
      (annotate before atEnd (text.dropWhile p)).2 := by
  induction text with
  | nil => rfl
  | cons c text ih =>
    show List.dropWhile _ ((c, (annotate before atEnd text).1) ::
      (annotate before atEnd text).2) = _
    cases hc : p c with
    | true => simpa [hc] using ih
    | false => simp [hc, annotate]

/-- Units of a text are a run of its characters, before the spots of the rest. -/
theorem readUnits_spots (viable : Char × α → Bool) {text : List Char} (h : '\\' ∉ text) :
    readUnits (·.1) p viable (annotate before atEnd text).2 =
      (text.takeWhile p, (annotate before atEnd (text.dropWhile p)).2) := by
  have hspots : ∀ spot ∈ (annotate before atEnd text).2, spot.1 ≠ '\\' := by
    intro spot hm
    refine ne_of_mem_of_not_mem ?_ h
    rw [← map_fst_annotate before atEnd text]
    exact List.mem_map_of_mem hm
  rw [readUnits_of_ne p hspots, map_takeWhile_annotate, dropWhile_annotate]

end

section

variable {α : Type} {before : Char → α → α} {atEnd : α} {places : α → Places}
  {plain : Char → Bool} {leaves : Char → α → Bool}

def isLeft (before : Char → α → α) (atEnd : α) (places : α → Places)
    (leaves : Char → α → Bool) : List Char → Bool
  | [] => (places atEnd).between
  | c :: rest => leaves c (annotate before atEnd rest).1

/-- Without escapes, a text can be read from between two units if it is left behind its first
run. -/
theorem between_annotate (hr : ReadsUnits before atEnd places plain leaves) {text : List Char}
    (h : '\\' ∉ text) : (places (annotate before atEnd text).1).between =
      isLeft before atEnd places leaves (text.dropWhile plain) := by
  induction text with
  | nil => rfl
  | cons c rest ih =>
    obtain ⟨hc, hrest⟩ : '\\' ≠ c ∧ '\\' ∉ rest := by simpa using h
    show (places (before c (annotate before atEnd rest).1)).between = _
    have hleaves := hr.of_leaves c (annotate before atEnd rest).1
    rw [hr.between, ih hrest]
    cases hp : plain c
    · simp [hp, Ne.symm hc, isLeft]
    · simp only [List.dropWhile_cons_of_pos hp]
      grind

/-- A text that is left in front has no plain character there. -/
theorem plain_head_of_isLeft (hr : ReadsUnits before atEnd places plain leaves)
    {text : List Char} (h : isLeft before atEnd places leaves text = true) :
    ∀ c ∈ text.head?, plain c = false := by
  cases text with
  | nil => simp
  | cons c rest => simpa using (hr.of_leaves c _ h).1

end

/-! ## Type sequences -/

def isBodyChar (c : Char) : Bool := isWeak c || isCode c

theorem readsUnits_body : ReadsUnits SequencePlaces.before .atEnd (·.body) isBodyChar
    fun c a => c = '*' && a.starred where
  between c a := by
    simp only [SequencePlaces.before, Places.before, isBodyChar]
    grind
  escaping _ _ := rfl
  twoLeft _ _ := rfl
  oneLeft _ _ := rfl
  escaping_atEnd := rfl
  twoLeft_atEnd := rfl
  oneLeft_atEnd := rfl
  plain_slash := by decide
  of_leaves c a h := by
    have : isBodyChar '*' = false := by decide
    grind

theorem isCode_code (prim : Prim) : isCode prim.code = true := by simp [isCode]

theorem isBodyChar_of_mem_chars (fields : List FieldText) {c : Char}
    (h : c ∈ fields.flatMap FieldText.chars) : isBodyChar c = true := by
  obtain ⟨field, -, hm⟩ := List.mem_flatMap.1 h
  rcases List.mem_cons.1 hm with rfl | hm
  · simp [isBodyChar, isCode_code]
  · simp [isBodyChar, field.sep.isWeak_of_mem c hm]

theorem isWeak_head_chars {fields : List FieldText} (hne : fields ≠ []) (tail : List Char) :
    ∀ c ∈ (fields.flatMap FieldText.chars ++ tail).head?, isWeak c = false := by
  cases fields with
  | nil => exact absurd rfl hne
  | cons field fields =>
    intro c hc
    obtain rfl : field.prim.code = c := by simpa [FieldText.chars] using hc
    exact isWeak_of_isCode (isCode_code _)

/-- Characters of a body are weak separator text, then codes with separator text behind each. -/
theorem exists_fieldTexts {text : List Char} (h : ∀ c ∈ text, isBodyChar c = true) :
    ∃ (lead : WeakText) (fields : List FieldText),
      text = lead.chars ++ fields.flatMap FieldText.chars := by
  induction text with
  | nil => exact ⟨.empty, [], rfl⟩
  | cons c rest ih =>
    obtain ⟨hc, hrest⟩ := List.forall_mem_cons.1 h
    obtain ⟨lead, fields, rfl⟩ := ih hrest
    cases hw : isWeak c with
    | true =>
      exact ⟨⟨c :: lead.chars, List.forall_mem_cons.2 ⟨hw, lead.isWeak_of_mem⟩⟩, fields, rfl⟩
    | false =>
      have hcode : isCode c = true := by simpa [isBodyChar, hw] using hc
      obtain ⟨prim, hp⟩ := Option.isSome_iff_exists.1 hcode
      refine ⟨.empty, ⟨prim, lead⟩ :: fields, ?_⟩
      simp [WeakText.empty, FieldText.chars, Prim.code_of_ofCode? hp]

section

variable {α : Type} {before : Char → α → α} {atEnd : α} {seq : α → SequencePlaces}
  {leaves : Char → α → Bool}

/-- A text can be read from the front of a type sequence if it has codes with separator text and
is left behind them. -/
theorem lead_between_iff
    (hlead : ReadsUnits before atEnd (fun a => (seq a).lead) isWeak
      fun c a => isCode c && (seq a).body.between)
    (hbody : ReadsUnits before atEnd (fun a => (seq a).body) isBodyChar leaves)
    (hend : (seq atEnd).lead.between = false) {text : List Char} (h : '\\' ∉ text) :
    (seq (annotate before atEnd text).1).lead.between = true ↔
      ∃ (lead : WeakText) (fields : List FieldText) (tail : List Char), fields ≠ [] ∧
        text = lead.chars ++ fields.flatMap FieldText.chars ++ tail ∧
          isLeft before atEnd (fun a => (seq a).body) leaves tail = true := by
  rw [between_annotate hlead h]
  constructor
  · intro hleft
    have htext := List.takeWhile_append_dropWhile (p := isWeak) (l := text)
    cases hdrop : text.dropWhile isWeak with
    | nil => simp [hdrop, isLeft, hend] at hleft
    | cons c rest =>
      rw [hdrop] at hleft htext
      have hrest : '\\' ∉ rest := fun hm => h (htext ▸ by simp [hm])
      simp only [isLeft, Bool.and_eq_true] at hleft
      rw [between_annotate hbody hrest] at hleft
      obtain ⟨prim, hp⟩ := Option.isSome_iff_exists.1 hleft.1
      have hrun : ∀ c ∈ rest.takeWhile isBodyChar, isBodyChar c = true :=
        fun c hc => List.mem_takeWhile_imp hc
      obtain ⟨sep, fields, hfields⟩ := exists_fieldTexts hrun
      refine ⟨⟨text.takeWhile isWeak, fun c hc => List.mem_takeWhile_imp hc⟩,
        ⟨prim, sep⟩ :: fields, rest.dropWhile isBodyChar, by simp, ?_, hleft.2⟩
      have hcode : prim.code = c := Prim.code_of_ofCode? hp
      calc text
        _ = text.takeWhile isWeak ++ c :: rest := htext.symm
        _ = text.takeWhile isWeak ++ c :: (sep.chars ++ fields.flatMap FieldText.chars ++
              rest.dropWhile isBodyChar) := by
            rw [← hfields, List.takeWhile_append_dropWhile]
        _ = _ := by simp [FieldText.chars, hcode]
  · rintro ⟨lead, fields, tail, hne, rfl, hleft⟩
    rw [List.append_assoc,
      dropWhile_append_of_head lead.isWeak_of_mem (isWeak_head_chars hne tail)]
    cases fields with
    | nil => exact absurd rfl hne
    | cons field fields =>
      have hrest : ∀ c ∈ field.sep.chars ++ fields.flatMap FieldText.chars,
          isBodyChar c = true := fun c hc =>
        isBodyChar_of_mem_chars (field :: fields) (by simp_all [FieldText.chars])
      have hnotMem : '\\' ∉ field.sep.chars ++ fields.flatMap FieldText.chars ++ tail := by
        simp_all [FieldText.chars]
      have hdrop := dropWhile_append_of_head hrest (plain_head_of_isLeft hbody hleft)
      have hbetween := between_annotate hbody hnotMem
      simp only [List.flatMap_cons, FieldText.chars, List.cons_append, isLeft, isCode_code,
        Bool.true_and]
      rw [hbetween, hdrop, hleft]

end

namespace FlatDerivation

variable (d : FlatDerivation)

def star : List Char := if d.starred then ['*'] else []

theorem text_eq : d.text = d.lead.chars ++ d.body ++ d.star := rfl

theorem isBodyChar_of_mem {c : Char} (h : c ∈ d.body) : isBodyChar c = true :=
  isBodyChar_of_mem_chars d.fields h

theorem notMem_text {c : Char} (hc : isBodyChar c = false) (hs : c ≠ '*') : c ∉ d.text := by
  intro h
  rw [text_eq, List.mem_append, List.mem_append] at h
  rcases h with (h | h) | h
  · simp [isBodyChar, d.lead.isWeak_of_mem c h] at hc
  · simp [d.isBodyChar_of_mem h] at hc
  · unfold star at h
    split at h <;> simp_all

theorem slash_notMem_text : '\\' ∉ d.text := d.notMem_text (by decide) (by decide)

section

variable {tail : List Char}

theorem head_star_append (ht : ∀ c ∈ tail.head?, isBodyChar c = false) :
    ∀ c ∈ (d.star ++ tail).head?, isBodyChar c = false := by
  have hstar : isBodyChar '*' = false := by decide
  unfold star
  split <;> simp_all

/-- The parts of a type sequence, as they are read from a text that goes on. -/
theorem readUnits_lead {α : Type} (before : Char → α → α) (atEnd : α)
    (viable : Char × α → Bool) (h : '\\' ∉ tail) :
    readUnits (·.1) isWeak viable (annotate before atEnd (d.text ++ tail)).2 =
      (d.lead.chars, (annotate before atEnd (d.body ++ (d.star ++ tail))).2) := by
  have hhead : ∀ c ∈ (d.body ++ (d.star ++ tail)).head?, isWeak c = false :=
    isWeak_head_chars d.fields_ne_nil _
  have htext : d.text ++ tail = d.lead.chars ++ (d.body ++ (d.star ++ tail)) := by
    simp [text_eq]
  rw [readUnits_spots _ _ _ _ (by simp [d.slash_notMem_text, h]), htext,
    takeWhile_append_of_head d.lead.isWeak_of_mem hhead,
    dropWhile_append_of_head d.lead.isWeak_of_mem hhead]

theorem readUnits_body {α : Type} (before : Char → α → α) (atEnd : α)
    (viable : Char × α → Bool) (h : '\\' ∉ tail)
    (ht : ∀ c ∈ tail.head?, isBodyChar c = false) :
    readUnits (·.1) (fun c => isWeak c || isCode c) viable
        (annotate before atEnd (d.body ++ (d.star ++ tail))).2 =
      (d.body, (annotate before atEnd (d.star ++ tail)).2) := by
  have hhead := d.head_star_append ht
  have hnotMem : '\\' ∉ d.body ++ (d.star ++ tail) := by
    have := d.slash_notMem_text
    simp_all [text_eq]
  have hbody (c : Char) (hc : c ∈ d.body) : (isWeak c || isCode c) = true :=
    d.isBodyChar_of_mem hc
  rw [readUnits_spots _ _ _ _ hnotMem, takeWhile_append_of_head hbody hhead,
    dropWhile_append_of_head hbody hhead]

end

end FlatDerivation

/-! ## Flat nodes -/

theorem starred_annotate (text : List Char) :
    (annotate SequencePlaces.before .atEnd text).1.starred = text.isEmpty := by
  cases text <;> rfl

/-- A text that can be read as a type sequence has a derivation. -/
theorem lead_between_iff_exists {text : List Char} (h : '\\' ∉ text) :
    (annotate SequencePlaces.before .atEnd text).1.lead.between = true ↔
      ∃ d : FlatDerivation, d.text = text := by
  refine (@lead_between_iff _ _ _ id _ readsUnits_lead readsUnits_body rfl _ h).trans ⟨?_, ?_⟩
  · rintro ⟨lead, fields, tail, hne, rfl, hleft⟩
    cases tail with
    | nil => exact ⟨⟨lead, fields, hne, false⟩, rfl⟩
    | cons c tail =>
      obtain ⟨rfl, rfl⟩ : c = '*' ∧ tail = [] := by
        simpa [isLeft, starred_annotate] using hleft
      exact ⟨⟨lead, fields, hne, true⟩, rfl⟩
  · rintro ⟨d, rfl⟩
    refine ⟨d.lead, d.fields, d.star, d.fields_ne_nil, rfl, ?_⟩
    unfold FlatDerivation.star
    split <;> rfl

theorem codes_chars (fields : List FieldText) :
    TypeSequence.codes (fields.flatMap FieldText.chars) =
      fields.map fun field => (field.prim, field.sep.chars) := by
  induction fields with
  | nil => rw [List.flatMap_nil, TypeSequence.codes]; rfl
  | cons field fields ih =>
    have hnotMem : '\\' ∉ field.sep.chars ++ fields.flatMap FieldText.chars := fun h =>
      absurd (isBodyChar_of_mem_chars (field :: fields) (c := '\\')
        (by simp_all [FieldText.chars])) (by decide)
    have hhead : ∀ c ∈ (fields.flatMap FieldText.chars).head?, isWeak c = false := by
      cases hfields : fields with
      | nil => simp
      | cons next rest => simpa using isWeak_head_chars (List.cons_ne_nil next rest) []
    rw [List.flatMap_cons, FieldText.chars, List.cons_append, TypeSequence.codes]
    simp only [Prim.ofCode?_code, readGreedy_of_notMem isWeak hnotMem,
      takeWhile_append_of_head field.sep.isWeak_of_mem hhead,
      dropWhile_append_of_head field.sep.isWeak_of_mem hhead, ih, List.map_cons]

theorem unescape_of_notMem {text : List Char} (h : '\\' ∉ text) :
    unescape text = .ok (Bytes.ofChars text) := by
  have hread : Escape.read text = .ok (Bytes.ofChars text) := by
    induction text with
    | nil => rfl
    | cons c rest ih =>
      obtain ⟨hc, hrest⟩ : '\\' ≠ c ∧ '\\' ∉ rest := by simpa using h
      rw [Escape.read, ih hrest]
      · rfl
      · rintro - - - rfl; exact absurd rfl hc
      · rintro - - rfl; exact absurd rfl hc
  rw [unescape, hread]
  rfl

theorem WeakText.unescape_chars (text : WeakText) : unescape text.chars = .ok text.bytes :=
  unescape_of_notMem fun h => absurd (text.isWeak_of_mem _ h) (by decide)

theorem SepText.unescape_chars (text : SepText) : unescape text.chars = .ok text.bytes :=
  unescape_of_notMem (text.notMem_chars (by decide))

namespace FlatDerivation

variable (d : FlatDerivation)

def parts : TypeSequence := ⟨d.lead.chars, d.body, d.starred⟩

theorem read?_text : TypeSequence.read? d.text = some d.parts := by
  have hlead := (lead_between_iff_exists d.slash_notMem_text).2 ⟨d, rfl⟩
  have hreadLead := d.readUnits_lead SequencePlaces.before .atEnd (·.2.lead.between)
    List.not_mem_nil
  have hreadBody := d.readUnits_body SequencePlaces.before .atEnd (·.2.body.between)
    List.not_mem_nil (by simp)
  simp only [List.append_nil] at hreadLead hreadBody
  simp only [TypeSequence.read?, hlead, if_true, hreadLead, hreadBody]
  cases hs : d.starred <;> simp [parts, star, hs, annotate]

theorem layout_parts : d.parts.layout = .ok d.layout := by
  have hshape : d.parts.shape = .ok d.shape := by
    rw [TypeSequence.shape, bind_eq_ok]
    refine ⟨d.fields.map FieldText.field, ?_, ?_⟩
    · show (TypeSequence.codes (d.fields.flatMap FieldText.chars)).mapM _ = _
      rw [codes_chars, List.mapM_map]
      exact mapM_eq_ok fun field _ => by simp [WeakText.unescape_chars, FieldText.field]
    · rw [parts, WeakText.unescape_chars]
      rfl
  have hstarred : d.parts.starred = d.starred := rfl
  rw [TypeSequence.layout, hshape, ok_bind, pure_eq_ok, hstarred, layout]
  unfold TypeSequence.collapse
  generalize d.shape = shape
  cases shape
  grind

/-- A derived type sequence is read as its flat node. -/
theorem parseFlat?_text (ordinal : Nat) :
    parseFlat? d.text ordinal = some (.ok (d.node ordinal)) := by
  simp only [parseFlat?, read?_text, layout_parts, Option.map_some, Except.map]
  rfl

end FlatDerivation

/-- A text without escapes that is read as a flat node has a derivation. -/
theorem exists_flatDerivation {text : List Char} (h : '\\' ∉ text) {ordinal : Nat}
    {outcome : Except FormatError FlatNode} (hp : parseFlat? text ordinal = some outcome) :
    ∃ d : FlatDerivation, d.text = text := by
  simp only [parseFlat?, Option.map_eq_some_iff] at hp
  obtain ⟨parts, hparts, -⟩ := hp
  simp only [TypeSequence.read?, Option.ite_none_right_eq_some] at hparts
  exact (lead_between_iff_exists h).1 hparts.1

end RecordStore.Format
