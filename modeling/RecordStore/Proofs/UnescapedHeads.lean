import RecordStore.Proofs.UnescapedReadings

/-!
# Heads of containers without escapes

The text of a container without escapes is taken apart in one way, which is that of its
derivation.

## Main statements

* `Format.splitArgs?_eq_some_iff` — arguments and the text behind the opening parenthesis.
* `Format.splitBody?_annotate` — a body ends at the last parenthesis before separator text.
* `Format.key_lead_between_iff` — where the key of a container ends.
* `Format.VectorText.read?_text`, `Format.SetText.read?_text`, `Format.MapText.read?_text` — the
  parts of a derived container are read.
* `Format.VectorText.exists_text`, `Format.SetText.exists_text`, `Format.MapText.exists_text` —
  parts that are read are those of a derived text.
-/

namespace RecordStore.Format

/-! ## Arguments -/

theorem splitCommas_eq_splitOn (text : List Char) : splitCommas text = text.splitOn ',' := by
  induction text with
  | nil => rfl
  | cons c rest ih =>
    rw [splitCommas, ih, List.splitOn_cons_eq_if_modifyHead]
    obtain ⟨piece, pieces, hp⟩ := List.exists_cons_of_ne_nil (List.splitOn_ne_nil ',' rest)
    by_cases hc : c = ',' <;> simp [hc, hp]

theorem mem_splitCommas {text piece : List Char} (h : piece ∈ splitCommas text) {c : Char}
    (hc : c ∈ piece) : c ≠ ',' ∧ c ∈ text := by
  induction text generalizing piece with
  | nil => simp_all [splitCommas]
  | cons d rest ih =>
    obtain ⟨first, pieces, hp⟩ : ∃ first pieces, splitCommas rest = first :: pieces := by
      rw [splitCommas_eq_splitOn]
      exact List.exists_cons_of_ne_nil (List.splitOn_ne_nil ',' rest)
    by_cases hd : d = ','
    · rcases List.mem_cons.1 (by simpa [splitCommas, hd] using h) with rfl | hm
      · cases hc
      · exact (ih hm hc).imp_right (List.mem_cons_of_mem d)
    · rcases List.mem_cons.1 (by simpa [splitCommas, hd, hp] using h) with rfl | hm
      · rcases List.mem_cons.1 hc with rfl | hc
        · exact ⟨hd, List.mem_cons_self⟩
        · exact (ih (hp ▸ List.mem_cons_self) hc).imp_right (List.mem_cons_of_mem d)
      · exact (ih (hp ▸ List.mem_cons_of_mem first hm) hc).imp_right (List.mem_cons_of_mem d)

theorem argsText_cons (arg : ArgText) (args : List ArgText) :
    argsText (arg :: args) = ',' :: [','].intercalate ((arg :: args).map ArgText.chars) := by
  induction args generalizing arg with
  | nil => simp [argsText]
  | cons next args ih =>
    have hnext := ih next
    simp only [argsText, List.flatMap_cons, List.map_cons] at hnext ⊢
    rw [List.intercalate_cons_cons, hnext]
    simp

theorem notMem_argsText (args : List ArgText) {c : Char} (hc : isArgChar c = false)
    (hcomma : c ≠ ',') : c ∉ argsText args := by
  intro hm
  obtain ⟨arg, -, hm⟩ := List.mem_flatMap.1 hm
  rcases List.mem_cons.1 hm with rfl | hm
  · exact hcomma rfl
  · simp [arg.isArgChar_of_mem c hm] at hc

theorem readArgs?_argsText (args : List ArgText) :
    readArgs? (argsText args) = some (args.map ArgText.chars) := by
  cases args with
  | nil => rfl
  | cons arg args =>
    have hcomma : ∀ chars ∈ (arg :: args).map ArgText.chars, ',' ∉ chars := by
      rintro chars hm hc
      obtain ⟨arg, -, rfl⟩ := List.mem_map.1 hm
      exact absurd (arg.isArgChar_of_mem _ hc) (by decide)
    have hall : ((arg :: args).map ArgText.chars).all
        (fun arg => !arg.isEmpty && !arg.contains ')') = true := by
      rw [List.all_eq_true]
      intro chars hm
      obtain ⟨arg, -, rfl⟩ := List.mem_map.1 hm
      have hclose : ')' ∉ arg.chars := fun hc =>
        absurd (arg.isArgChar_of_mem _ hc) (by decide)
      simp [arg.ne_nil, hclose]
    rw [argsText_cons, readArgs?, splitCommas_eq_splitOn,
      List.splitOn_intercalate ',' hcomma (by simp)]
    exact if_pos hall

theorem exists_of_readArgs? {text : List Char} (hopen : '(' ∉ text) {args : List (List Char)}
    (h : readArgs? text = some args) :
    ∃ derived : List ArgText, derived.map ArgText.chars = args ∧ argsText derived = text := by
  unfold readArgs? at h
  split at h
  · obtain rfl := Option.some.inj h
    exact ⟨[], rfl, rfl⟩
  · rename_i rest
    simp only [Option.ite_none_right_eq_some, Option.some.injEq] at h
    obtain ⟨hall, rfl⟩ := h
    obtain ⟨derived, hderived⟩ : ∃ derived : List ArgText,
        List.Forall₂ (fun chars arg => ArgText.chars arg = chars) (splitCommas rest)
          derived := by
      refine exists_forall₂ fun chars hm => ?_
      have hchars := List.all_eq_true.1 hall chars hm
      simp only [Bool.and_eq_true, Bool.not_eq_true', List.isEmpty_eq_false_iff,
        List.contains_eq_mem, decide_eq_false_iff_not] at hchars
      refine ⟨⟨chars, fun c hc => ?_, hchars.1⟩, rfl⟩
      obtain ⟨hcomma, hrest⟩ := mem_splitCommas hm hc
      have h₁ : c ≠ '(' := ne_of_mem_of_not_mem (List.mem_cons_of_mem _ hrest) hopen
      have h₂ : c ≠ ')' := ne_of_mem_of_not_mem hc hchars.2
      simp [isArgChar, hcomma, h₁, h₂]
    have hmap : derived.map ArgText.chars = splitCommas rest :=
      List.forall₂_eq_eq_eq ▸ List.forall₂_map_left_iff.2 hderived.flip
    refine ⟨derived, hmap, ?_⟩
    cases hd : derived with
    | nil =>
      rw [hd, splitCommas_eq_splitOn] at hmap
      exact absurd hmap.symm (List.splitOn_ne_nil ',' rest)
    | cons arg args =>
      rw [argsText_cons, ← hd, hmap, splitCommas_eq_splitOn, List.intercalate_splitOn]
  · cases h

theorem splitArgs?_argsText (args : List ArgText) (rest : List Char) :
    splitArgs? (argsText args ++ '(' :: rest) = some (args.map ArgText.string, rest) := by
  have hfront : ∀ c ∈ argsText args, (c != '(') = true := fun c hc => by
    simpa using ne_of_mem_of_not_mem hc (notMem_argsText args (by decide) (by decide))
  rw [splitArgs?, dropWhile_append_of_head hfront (by simp),
    takeWhile_append_of_head hfront (by simp), readArgs?_argsText]
  simp [ArgText.string]

theorem splitArgs?_eq_some_iff {text rest : List Char} {args : List String} :
    splitArgs? text = some (args, rest) ↔
      ∃ derived : List ArgText, derived.map ArgText.string = args ∧
        text = argsText derived ++ '(' :: rest := by
  constructor
  · intro h
    simp only [splitArgs?] at h
    split at h
    · rename_i c tail chars hdrop hargs
      obtain ⟨rfl, rfl⟩ := Prod.mk.inj (Option.some.inj h)
      have hopen : '(' ∉ text.takeWhile (· != '(') := fun hm => by
        simpa using List.mem_takeWhile_imp hm
      obtain ⟨derived, rfl, htext⟩ := exists_of_readArgs? hopen hargs
      obtain rfl : c = '(' := by
        have := List.head_dropWhile_not (p := (· != '(')) (l := text) (by simp [hdrop])
        simpa [hdrop] using this
      refine ⟨derived, by simp [ArgText.string], ?_⟩
      rw [htext, ← hdrop, List.takeWhile_append_dropWhile]
    · cases h
  · rintro ⟨derived, rfl, rfl⟩
    exact splitArgs?_argsText derived rest

/-! ## Bodies -/

section

variable {α : Type} {before : Char → α → α} {atEnd : α} (closing : α → Bool)
  {text body sep : List Char}

theorem annotate_cons (c : Char) (text : List Char) : (annotate before atEnd (c :: text)).2 =
    (c, (annotate before atEnd text).1) :: (annotate before atEnd text).2 := rfl

/-- No body is cut off if no parenthesis behind a character is marked. -/
theorem splitBody?_annotate_eq_none
    (h : ∀ body sep, body ≠ [] → text = body ++ ')' :: sep →
      closing (annotate before atEnd sep).1 = false) :
    splitBody? (·.1) (fun spot => closing spot.2) (annotate before atEnd text).2 = none := by
  induction text with
  | nil => rfl
  | cons a rest ih =>
    rw [annotate_cons]
    unfold splitBody?
    rw [ih fun body sep _ hrest => h (a :: body) sep (by simp) (by rw [hrest]; rfl)]
    cases rest with
    | nil => rfl
    | cons b sep =>
      rw [annotate_cons]
      refine if_neg fun hb => ?_
      obtain ⟨rfl, hclosing⟩ : b = ')' ∧ closing (annotate before atEnd sep).1 = true := by
        simpa using hb
      simp [h [a] sep (by simp) rfl] at hclosing

/-- A body is cut off before separator text that the closing parenthesis is marked for, if no other
one in this text is. -/
theorem splitBody?_annotate (hb : body ≠ [])
    (hs : ∀ front back, sep = front ++ ')' :: back →
      closing (annotate before atEnd back).1 = false)
    (hc : closing (annotate before atEnd sep).1 = true) :
    splitBody? (·.1) (fun spot => closing spot.2)
      (annotate before atEnd (body ++ ')' :: sep)).2 = some (body, sep) := by
  induction body with
  | nil => exact absurd rfl hb
  | cons a body ih =>
    rw [List.cons_append, annotate_cons]
    unfold splitBody?
    cases hbody : body with
    | nil =>
      have hnone : splitBody? (·.1) (fun spot => closing spot.2)
          (annotate before atEnd (')' :: sep)).2 = none := by
        refine splitBody?_annotate_eq_none closing fun front back hne htext => ?_
        obtain ⟨c, front, rfl⟩ := List.exists_cons_of_ne_nil hne
        exact hs front back (List.cons.inj htext).2
      rw [List.nil_append, hnone, annotate_cons]
      simp [hc]
    | cons b body' => rw [← hbody, ih (by simp [hbody])]

/-- Without a parenthesis in it, separator text has none that is marked. -/
theorem closing_of_notMem (h : ')' ∉ sep) :
    ∀ front back, sep = front ++ ')' :: back →
      closing (annotate before atEnd back).1 = false := by
  rintro front back rfl
  simp at h

/-- A body that is cut off ends at a parenthesis that is marked for the text behind it. -/
theorem of_splitBody?_annotate (h : splitBody? (·.1) (fun spot => closing spot.2)
      (annotate before atEnd text).2 = some (body, sep)) :
    text = body ++ ')' :: sep ∧ closing (annotate before atEnd sep).1 = true :=
  ⟨by simpa using eq_of_splitBody? h, closing_of_splitBody? closing List.suffix_rfl h⟩

end

/-! ## Separator text behind a body -/

theorem readsUnits_bodySep :
    ReadsUnits BodyPlaces.before .atEnd (·.sep) isPlain fun _ _ => false where
  between _ _ := (Bool.or_false _).symm
  escaping _ _ := rfl
  twoLeft _ _ := rfl
  oneLeft _ _ := rfl
  escaping_atEnd := rfl
  twoLeft_atEnd := rfl
  oneLeft_atEnd := rfl
  plain_slash := by decide
  of_leaves _ _ h := nomatch h

/-- A parenthesis closes a body if separator text is all that follows. -/
theorem body_closed_iff {text : List Char} (h : '\\' ∉ text) :
    (annotate BodyPlaces.before .atEnd text).1.closed = true ↔
      ∃ sep : SepText, text = sep.chars := by
  have hbetween := between_annotate readsUnits_bodySep h
  have hiff : (annotate BodyPlaces.before .atEnd text).1.sep.between = true ↔
      ∀ c ∈ text, isPlain c = true := by
    rw [hbetween, ← List.dropWhile_eq_nil_iff]
    cases text.dropWhile isPlain <;> simp [isLeft, BodyPlaces.atEnd, Places.atEnd]
  constructor
  · intro hclosed
    cases text with
    | nil => cases hclosed
    | cons c rest => exact ⟨⟨c :: rest, hiff.1 hclosed, by simp⟩, rfl⟩
  · rintro ⟨⟨chars, hplain, hne⟩, rfl⟩
    cases text with
    | nil => exact absurd rfl hne
    | cons c rest => exact hiff.2 hplain

/-! ## Sequences -/

namespace VectorText

theorem read?_text (args : List ArgText) {element : List Char} (he : element ≠ [])
    (sep : SepText) :
    read? ('V' :: argsText args ++ '(' :: element ++ ')' :: sep.chars) =
      some ⟨args.map ArgText.string, element, sep.chars⟩ := by
  have hclosed := (body_closed_iff (sep.notMem_chars (by decide))).2 ⟨sep, rfl⟩
  have hbody := splitBody?_annotate BodyPlaces.closed he
    (closing_of_notMem _ (sep.notMem_chars (by decide))) hclosed
  simp only [List.cons_append, List.append_assoc, read?, splitArgs?_argsText, Option.bind_eq_bind,
    Option.bind_some, hbody]
  rfl

theorem exists_text {text : List Char} (h : '\\' ∉ text) {parts : VectorText}
    (hp : read? text = some parts) :
    ∃ (args : List ArgText) (sep : SepText),
      text = 'V' :: argsText args ++ '(' :: parts.element ++ ')' :: sep.chars := by
  obtain ⟨tail, rest, rfl, ha, hb⟩ := exists_of_read? hp
  obtain ⟨args, -, rfl⟩ := splitArgs?_eq_some_iff.1 ha
  obtain ⟨rfl, hclosed⟩ := of_splitBody?_annotate BodyPlaces.closed hb
  have hsep : '\\' ∉ parts.sep := fun hm => h (by simp [hm])
  obtain ⟨sep, hs⟩ := (body_closed_iff hsep).1 hclosed
  exact ⟨args, sep, by simp [hs]⟩

end VectorText

/-! ## Keys -/

theorem readsUnits_keySep (atEnd : KeyPlaces) (he : atEnd.sep.escaping = false)
    (ht : atEnd.sep.twoLeft = false) (ho : atEnd.sep.oneLeft = false) :
    ReadsUnits KeyPlaces.before atEnd (·.sep) isPlain fun c a => c = '(' && a.value.opened where
  between _ _ := rfl
  escaping _ _ := rfl
  twoLeft _ _ := rfl
  oneLeft _ _ := rfl
  escaping_atEnd := he
  twoLeft_atEnd := ht
  oneLeft_atEnd := ho
  plain_slash := by decide
  of_leaves c a h := by
    have : isPlain '(' = false := by decide
    grind

theorem starred_annotate_key {atEnd : KeyPlaces} (hk : atEnd.key = .none) (text : List Char) :
    (annotate KeyPlaces.before atEnd text).1.key.starred = true ↔
      ∃ tail, text = ')' :: tail ∧ (annotate KeyPlaces.before atEnd tail).1.closed = true := by
  cases text with
  | nil => simp [annotate, hk, SequencePlaces.none]
  | cons c rest =>
    show (false || decide (c = ')') && (annotate KeyPlaces.before atEnd rest).1.closed) = true ↔ _
    simp

/-- A text begins with a key if it is that of a type sequence up to a closing parenthesis. -/
theorem key_lead_between_iff (atEnd : KeyPlaces) (hk : atEnd.key = .none) {text : List Char}
    (h : '\\' ∉ text) :
    (annotate KeyPlaces.before atEnd text).1.key.lead.between = true ↔
      ∃ (key : FlatDerivation) (tail : List Char), text = key.text ++ ')' :: tail ∧
        (annotate KeyPlaces.before atEnd tail).1.closed = true := by
  have hend : atEnd.key.lead.between = false := by rw [hk]; rfl
  refine (lead_between_iff (readsUnits_keyLead atEnd hk) (readsUnits_keyBody atEnd hk) hend
    h).trans ⟨?_, ?_⟩
  · rintro ⟨lead, fields, tail, hne, rfl, hleft⟩
    cases tail with
    | nil => simp [isLeft, hk, SequencePlaces.none, Places.none] at hleft
    | cons c tail =>
      simp only [isLeft, Bool.or_eq_true, Bool.and_eq_true, decide_eq_true_eq] at hleft
      rcases hleft with ⟨rfl, hstarred⟩ | ⟨rfl, hclosed⟩
      · obtain ⟨tail, rfl, hclosed⟩ := (starred_annotate_key hk tail).1 hstarred
        exact ⟨⟨lead, fields, hne, true⟩, tail, by simp [FlatDerivation.text,
          FlatDerivation.body], hclosed⟩
      · exact ⟨⟨lead, fields, hne, false⟩, tail, by simp [FlatDerivation.text,
          FlatDerivation.body], hclosed⟩
  · rintro ⟨key, tail, rfl, hclosed⟩
    refine ⟨key.lead, key.fields, key.star ++ ')' :: tail, key.fields_ne_nil,
      by simp [FlatDerivation.text_eq, FlatDerivation.body], ?_⟩
    unfold FlatDerivation.star
    cases key.starred with
    | true => simp [isLeft, (starred_annotate_key hk _).2 ⟨tail, rfl, hclosed⟩]
    | false => simp [isLeft, hclosed]

namespace FlatDerivation

variable (key : FlatDerivation)

/-- A key and the separator text behind it, as they are read from a text that goes on. -/
theorem splitKey_text (atEnd : KeyPlaces) (sep : SepText) {tail : List Char} (h : '\\' ∉ tail)
    (ht : ∀ c ∈ tail.head?, isPlain c = false) :
    splitKey (annotate KeyPlaces.before atEnd (key.text ++ ')' :: (sep.chars ++ tail))).2 =
      (key.text, sep.chars, (annotate KeyPlaces.before atEnd tail).2) := by
  have hsep : '\\' ∉ sep.chars ++ tail := by
    simp [h, sep.notMem_chars (show isPlain '\\' = false by decide)]
  have hclose : ∀ c ∈ (')' :: (sep.chars ++ tail)).head?, isBodyChar c = false := by
    have : isBodyChar ')' = false := by decide
    simpa using this
  have hnotMem : '\\' ∉ ')' :: (sep.chars ++ tail) := by simpa using hsep
  have hlead := key.readUnits_lead KeyPlaces.before atEnd (·.2.key.lead.between) hnotMem
  have hbody := key.readUnits_body KeyPlaces.before atEnd (·.2.key.body.between) hnotMem hclose
  have hread := readUnits_spots KeyPlaces.before atEnd isPlain (·.2.sep.between) hsep
  rw [takeWhile_append_of_head sep.isPlain_of_mem ht,
    dropWhile_append_of_head sep.isPlain_of_mem ht] at hread
  have hstar : (((annotate KeyPlaces.before atEnd (key.star ++ ')' :: (sep.chars ++ tail))).2.take
      1).map (·.1)).filter (· = '*') = key.star := by
    unfold star
    cases key.starred <;> simp [annotate]
  have hdrop : (annotate KeyPlaces.before atEnd (key.star ++ ')' :: (sep.chars ++ tail))).2.drop
      (key.star.length + 1) = (annotate KeyPlaces.before atEnd (sep.chars ++ tail)).2 := by
    rw [drop_annotate]
    unfold star
    cases key.starred <;> simp
  simp only [splitKey, hlead, hbody, hstar, hdrop, hread]
  rfl

/-- The text behind a key is known from the text in front of which the key stands. -/
theorem tail_eq_of_text_append_eq {key key' : FlatDerivation} {tail tail' : List Char}
    (h : key.text ++ ')' :: tail = key'.text ++ ')' :: tail') : tail = tail' := by
  have hdrop (key : FlatDerivation) (tail : List Char) :
      (key.text ++ ')' :: tail).dropWhile (· != ')') = ')' :: tail := by
    have hclose : ')' ∉ key.text := key.notMem_text (by decide) (by decide)
    have hkey : ∀ c ∈ key.text, (c != ')') = true := fun c hc => by
      simpa using ne_of_mem_of_not_mem hc hclose
    exact dropWhile_append_of_head hkey (by simp)
  simpa [hdrop] using congrArg (List.dropWhile (· != ')')) h

end FlatDerivation

/-! ## Sets -/

theorem value_annotate (atEnd : KeyPlaces) (text : List Char) :
    (annotate KeyPlaces.before atEnd text).1.value =
      (annotate BodyPlaces.before atEnd.value text).1 := by
  induction text with
  | nil => rfl
  | cons c rest ih =>
    show BodyPlaces.before c (annotate KeyPlaces.before atEnd rest).1.value =
      BodyPlaces.before c (annotate BodyPlaces.before atEnd.value rest).1
    rw [ih]

theorem annotate_none (text : List Char) :
    (annotate BodyPlaces.before .none text).1 = .none := by
  induction text with
  | nil => rfl
  | cons c rest ih =>
    show BodyPlaces.before c (annotate BodyPlaces.before .none rest).1 = .none
    rw [ih]
    simp [BodyPlaces.before, BodyPlaces.none, Places.before, Places.none]

/-- A parenthesis closes the key of a container if separator text follows and leads to the end of
the text or to a value. -/
theorem key_closed_iff {atEnd : KeyPlaces}
    (hr : ReadsUnits KeyPlaces.before atEnd (·.sep) isPlain fun c a => c = '(' && a.value.opened)
    (hc : atEnd.closed = false) {text : List Char} (h : '\\' ∉ text) :
    (annotate KeyPlaces.before atEnd text).1.closed = true ↔
      ∃ (sep : SepText) (tail : List Char), text = sep.chars ++ tail ∧
        isLeft KeyPlaces.before atEnd (·.sep) (fun c a => c = '(' && a.value.opened) tail =
          true := by
  have hclosed (c : Char) (rest : List Char) (hslash : c ≠ '\\') :
      (annotate KeyPlaces.before atEnd (c :: rest)).1.closed =
        (isPlain c && (annotate KeyPlaces.before atEnd rest).1.sep.between) := by
    show (isPlain c && (annotate KeyPlaces.before atEnd rest).1.sep.between ||
      decide (c = '\\') && (annotate KeyPlaces.before atEnd rest).1.sep.escaping) = _
    simp [hslash]
  cases text with
  | nil =>
    simp only [annotate, List.foldr_nil, hc, Bool.false_eq_true, false_iff, not_exists]
    rintro sep tail ⟨htext, -⟩
    exact sep.ne_nil (List.append_eq_nil_iff.1 htext.symm).1
  | cons c rest =>
    obtain ⟨hslash, hrest⟩ : '\\' ≠ c ∧ '\\' ∉ rest := by simpa using h
    rw [hclosed c rest hslash.symm, between_annotate hr hrest, Bool.and_eq_true]
    constructor
    · rintro ⟨hplain, hleft⟩
      refine ⟨⟨c :: rest.takeWhile isPlain, ?_, by simp⟩, rest.dropWhile isPlain, ?_, hleft⟩
      · exact List.forall_mem_cons.2 ⟨hplain, fun d hd => List.mem_takeWhile_imp hd⟩
      · simp
    · rintro ⟨⟨chars, hplain, hne⟩, tail, htext, hleft⟩
      cases chars with
      | nil => exact absurd rfl hne
      | cons d chars =>
        simp only [List.cons_append, List.cons.injEq] at htext
        obtain ⟨rfl, rfl⟩ := htext
        obtain ⟨hd, hchars⟩ := List.forall_mem_cons.1 hplain
        rw [dropWhile_append_of_head hchars (plain_head_of_isLeft hr hleft)]
        exact ⟨hd, hleft⟩

/-- The key of a set has separator text behind it and nothing more. -/
theorem set_closed_iff {text : List Char} (h : '\\' ∉ text) :
    (annotate KeyPlaces.before .atSetEnd text).1.closed = true ↔
      ∃ sep : SepText, text = sep.chars := by
  rw [key_closed_iff (readsUnits_keySep .atSetEnd rfl rfl rfl) rfl h]
  constructor
  · rintro ⟨sep, tail, rfl, hleft⟩
    cases tail with
    | nil => exact ⟨sep, List.append_nil _⟩
    | cons c tail =>
      have hnone : (annotate KeyPlaces.before .atSetEnd tail).1.value = .none :=
        (value_annotate .atSetEnd tail).trans (annotate_none tail)
      simp [isLeft, hnone, BodyPlaces.none] at hleft
  · rintro ⟨sep, rfl⟩
    exact ⟨sep, [], (List.append_nil _).symm, rfl⟩

theorem isOrdered?_keyedLetter (ordered : Bool) :
    isOrdered? (keyedLetter ordered) = some ordered := by
  cases ordered <;> rfl

theorem keyedLetter_of_isOrdered? {c : Char} {ordered : Bool} (h : isOrdered? c = some ordered) :
    c = keyedLetter ordered := by
  unfold isOrdered? at h
  split at h <;> simp_all [keyedLetter]

namespace SetText

theorem read?_text (ordered : Bool) (args : List ArgText) (key : FlatDerivation) (sep : SepText) :
    read? (keyedLetter ordered :: argsText args ++ '(' :: key.text ++ ')' :: sep.chars) =
      some ⟨ordered, args.map ArgText.string, key.text, sep.chars⟩ := by
  have hsep : '\\' ∉ sep.chars := sep.notMem_chars (by decide)
  have hnotMem : '\\' ∉ key.text ++ ')' :: sep.chars := by simp [hsep, key.slash_notMem_text]
  have hlead := (key_lead_between_iff .atSetEnd rfl hnotMem).2
    ⟨key, sep.chars, rfl, (set_closed_iff hsep).2 ⟨sep, rfl⟩⟩
  have hsplit := key.splitKey_text .atSetEnd sep List.not_mem_nil (by simp)
  rw [List.append_nil] at hsplit
  simp only [List.cons_append, List.append_assoc, read?, isOrdered?_keyedLetter,
    splitArgs?_argsText, Option.bind_eq_bind, Option.bind_some, hlead, if_true, hsplit]
  rfl

theorem exists_text {text : List Char} (h : '\\' ∉ text) {parts : SetText}
    (hp : read? text = some parts) :
    ∃ (ordered : Bool) (args : List ArgText) (key : FlatDerivation) (sep : SepText),
      text = keyedLetter ordered :: argsText args ++ '(' :: key.text ++ ')' :: sep.chars := by
  obtain ⟨c, tail, rest, rfl, hc, ha, hlead, -⟩ := exists_of_read? hp
  obtain rfl := keyedLetter_of_isOrdered? hc
  obtain ⟨args, -, rfl⟩ := splitArgs?_eq_some_iff.1 ha
  have hrest : '\\' ∉ rest := fun hm => h (by simp [hm])
  obtain ⟨key, tail, rfl, hclosed⟩ := (key_lead_between_iff .atSetEnd rfl hrest).1 hlead
  have htail : '\\' ∉ tail := fun hm => hrest (by simp [hm])
  obtain ⟨sep, rfl⟩ := (set_closed_iff htail).1 hclosed
  exact ⟨parts.ordered, args, key, sep, by simp⟩

/-- A text with a value behind its key is not read as that of a set. -/
theorem read?_eq_none (ordered : Bool) (args : List ArgText) (key : FlatDerivation)
    {tail : List Char} (h : '\\' ∉ tail) (ht : '(' ∈ tail) :
    read? (keyedLetter ordered :: argsText args ++ '(' :: key.text ++ ')' :: tail) = none := by
  have hlead : ¬ (annotate KeyPlaces.before .atSetEnd
      (key.text ++ ')' :: tail)).1.key.lead.between = true := by
    rw [key_lead_between_iff .atSetEnd rfl (by simp [h, key.slash_notMem_text])]
    rintro ⟨key', tail', htext, hclosed⟩
    obtain rfl := FlatDerivation.tail_eq_of_text_append_eq htext
    obtain ⟨sep, rfl⟩ := (set_closed_iff h).1 hclosed
    exact sep.notMem_chars (by decide) ht
  simp only [List.cons_append, List.append_assoc, read?, isOrdered?_keyedLetter,
    splitArgs?_argsText, Option.bind_eq_bind, Option.bind_some, if_neg hlead]

end SetText

/-! ## Maps -/

/-- Behind a character of a body, the text goes on to a parenthesis that closes it. -/
theorem body_inside_iff {text : List Char} (h : '\\' ∉ text) :
    (annotate BodyPlaces.before .atEnd text).1.inside = true ↔
      ∃ (front : List Char) (sep : SepText), text = front ++ ')' :: sep.chars := by
  induction text with
  | nil => simp [annotate, BodyPlaces.atEnd]
  | cons c rest ih =>
    obtain ⟨-, hrest⟩ : '\\' ≠ c ∧ '\\' ∉ rest := by simpa using h
    show ((annotate BodyPlaces.before .atEnd rest).1.inside ||
      decide (c = ')') && (annotate BodyPlaces.before .atEnd rest).1.closed) = true ↔ _
    rw [Bool.or_eq_true, Bool.and_eq_true, decide_eq_true_eq, ih hrest, body_closed_iff hrest]
    constructor
    · rintro (⟨front, sep, rfl⟩ | ⟨rfl, sep, rfl⟩)
      · exact ⟨c :: front, sep, rfl⟩
      · exact ⟨[], sep, rfl⟩
    · rintro ⟨front, sep, htext⟩
      cases front with
      | nil => exact .inr ⟨(List.cons.inj htext).1, sep, (List.cons.inj htext).2⟩
      | cons d front => exact .inl ⟨front, sep, (List.cons.inj htext).2⟩

/-- The key of a map has separator text behind it, then a value in parentheses and separator text
again. -/
theorem map_closed_iff {text : List Char} (h : '\\' ∉ text) :
    (annotate KeyPlaces.before .atMapEnd text).1.closed = true ↔
      ∃ (keySep : SepText) (value : List Char) (sep : SepText), value ≠ [] ∧
        text = keySep.chars ++ '(' :: value ++ ')' :: sep.chars := by
  rw [key_closed_iff (readsUnits_keySep .atMapEnd rfl rfl rfl) rfl h]
  constructor
  · rintro ⟨keySep, tail, rfl, hleft⟩
    have htail : '\\' ∉ tail := fun hm => h (by simp [hm])
    match tail with
    | [] => cases hleft
    | [c] => simp [isLeft, annotate, KeyPlaces.atMapEnd, BodyPlaces.atEnd] at hleft
    | c :: d :: rest =>
      have hrest : '\\' ∉ rest := fun hm => htail (by simp [hm])
      simp only [isLeft, value_annotate, Bool.and_eq_true, decide_eq_true_eq] at hleft
      obtain ⟨rfl, hinside⟩ := hleft
      obtain ⟨front, sep, rfl⟩ := (body_inside_iff hrest).1 hinside
      exact ⟨keySep, d :: front, sep, by simp, by simp⟩
  · rintro ⟨keySep, value, sep, hne, rfl⟩
    refine ⟨keySep, '(' :: value ++ ')' :: sep.chars, by simp, ?_⟩
    cases value with
    | nil => exact absurd rfl hne
    | cons d front =>
      have hnotMem : '\\' ∉ front ++ ')' :: sep.chars := fun hm => h (by simp_all)
      have hinside := (body_inside_iff hnotMem).2 ⟨front, sep, rfl⟩
      simp only [List.cons_append, isLeft, value_annotate, decide_true, Bool.true_and]
      exact hinside

namespace MapText

theorem read?_text (ordered : Bool) (args : List ArgText) (key : FlatDerivation)
    (keySep : SepText) {value : List Char} (hv : value ≠ []) (h : '\\' ∉ value) (sep : SepText) :
    read? (keyedLetter ordered :: argsText args ++ '(' :: key.text ++ ')' :: keySep.chars ++
        '(' :: value ++ ')' :: sep.chars) =
      some ⟨ordered, args.map ArgText.string, key.text, keySep.chars, value, sep.chars⟩ := by
  have hsep (sep : SepText) : '\\' ∉ sep.chars := sep.notMem_chars (by decide)
  have htail : '\\' ∉ '(' :: (value ++ ')' :: sep.chars) := by simp [h, hsep]
  have hbehind : '\\' ∉ keySep.chars ++ '(' :: (value ++ ')' :: sep.chars) := by
    simp [h, hsep]
  have hclosed := (map_closed_iff hbehind).2 ⟨keySep, value, sep, hv, by simp⟩
  have hnotMem : '\\' ∉ key.text ++ ')' ::
      (keySep.chars ++ '(' :: (value ++ ')' :: sep.chars)) := by
    simp [h, hsep, key.slash_notMem_text]
  have hlead := (key_lead_between_iff .atMapEnd rfl hnotMem).2 ⟨key, _, rfl, hclosed⟩
  have hsplit := key.splitKey_text .atMapEnd keySep htail
    (by have : isPlain '(' = false := by decide
        simpa using this)
  have hvalueClosed : (annotate KeyPlaces.before .atMapEnd sep.chars).1.value.closed = true := by
    rw [value_annotate]
    exact (body_closed_iff (hsep sep)).2 ⟨sep, rfl⟩
  have hbody := splitBody?_annotate (fun places : KeyPlaces => places.value.closed) hv
    (closing_of_notMem (fun places : KeyPlaces => places.value.closed)
      (sep.notMem_chars (by decide))) hvalueClosed
  have hdrop := drop_annotate KeyPlaces.before .atMapEnd 1 ('(' :: (value ++ ')' :: sep.chars))
  simp only [List.drop_one, List.tail_cons] at hdrop
  simp only [List.cons_append, List.append_assoc, read?, isOrdered?_keyedLetter,
    splitArgs?_argsText, Option.bind_eq_bind, Option.bind_some, hlead, if_true, hsplit,
    List.drop_one, hdrop, hbody]
  rfl

theorem exists_text {text : List Char} (h : '\\' ∉ text) {parts : MapText}
    (hp : read? text = some parts) :
    ∃ (ordered : Bool) (args : List ArgText) (key : FlatDerivation) (keySep sep : SepText),
      text = keyedLetter ordered :: argsText args ++ '(' :: key.text ++ ')' :: keySep.chars ++
        '(' :: parts.value ++ ')' :: sep.chars := by
  have hread := hp
  obtain ⟨c, tail, rest, rfl, hc, ha, hlead, -⟩ := exists_of_read? hp
  obtain rfl := keyedLetter_of_isOrdered? hc
  obtain ⟨args, -, rfl⟩ := splitArgs?_eq_some_iff.1 ha
  have hrest : '\\' ∉ rest := fun hm => h (by simp [hm])
  obtain ⟨key, tail, rfl, hclosed⟩ := (key_lead_between_iff .atMapEnd rfl hrest).1 hlead
  have htail : '\\' ∉ tail := fun hm => hrest (by simp [hm])
  obtain ⟨keySep, value, sep, hne, rfl⟩ := (map_closed_iff htail).1 hclosed
  have hvalue : '\\' ∉ value := fun hm => htail (by simp [hm])
  have htext := read?_text parts.ordered args key keySep hne hvalue sep
  refine ⟨parts.ordered, args, key, keySep, sep, ?_⟩
  simp only [List.cons_append, List.append_assoc] at htext hread ⊢
  rw [htext] at hread
  have hpart : value = parts.value := congrArg MapText.value (Option.some.inj hread)
  rw [hpart]

end MapText

end RecordStore.Format
