import RecordStore.Format.Head

/-!
# Readings of formats

Separator text is read unit by unit for as long as the rest of the text can be read. So the units
end where the text is left for what follows them, and a key has separator text behind it.

## Main definitions

* `Format.ReadsUnits` — the places of a text that go with its units.

## Main statements

* `Format.readUnits_annotate` — units are read up to where the text is left.
* `Format.splitKey_sep_ne_nil` — the separator text of a key is not empty.
-/

namespace RecordStore.Format

/-- Whether the units of a text are read from the places that go with them. Besides by a unit, a
text can be read on by a character that leaves the separator text. -/
structure ReadsUnits {α : Type} (before : Char → α → α) (atEnd : α) (places : α → Places)
    (plain : Char → Bool) (leaves : Char → α → Bool) : Prop where
  between : ∀ c a, (places (before c a)).between =
    (plain c && (places a).between || c = '\\' && (places a).escaping || leaves c a)
  escaping : ∀ c a, (places (before c a)).escaping =
    ((places a).between || c = 'x' && (places a).twoLeft)
  twoLeft : ∀ c a, (places (before c a)).twoLeft = (places a).oneLeft
  oneLeft : ∀ c a, (places (before c a)).oneLeft = (places a).between
  escaping_atEnd : (places atEnd).escaping = false
  twoLeft_atEnd : (places atEnd).twoLeft = false
  oneLeft_atEnd : (places atEnd).oneLeft = false
  plain_slash : plain '\\' = false
  of_leaves : ∀ c a, leaves c a = true → plain c = false ∧ c ≠ '\\'

theorem drop_annotate {α : Type} (before : Char → α → α) (atEnd : α) (n : Nat)
    (text : List Char) :
    (annotate before atEnd text).2.drop n = (annotate before atEnd (text.drop n)).2 := by
  induction text generalizing n with
  | nil => simp [annotate]
  | cons c text ih =>
    cases n with
    | zero => rfl
    | succ n => exact ih n

section

variable {α : Type} {before : Char → α → α} {atEnd : α} {places : α → Places}
  {plain : Char → Bool} {leaves : Char → α → Bool}

/-- Behind a unit the rest can be read from there. -/
theorem between_drop_unitLength (hr : ReadsUnits before atEnd places plain leaves)
    {text : List Char} (h : (places (annotate before atEnd text).1).between = true)
    (hpos : unitLength (·.1) plain (fun spot => (places spot.2).between)
      (annotate before atEnd text).2 ≠ 0) :
    (places (annotate before atEnd (text.drop (unitLength (·.1) plain
      (fun spot => (places spot.2).between) (annotate before atEnd text).2))).1).between =
        true := by
  obtain ⟨hb, he, ht, ho, hee, hte, hoe, hs, hl⟩ := hr
  rcases text with _ | ⟨a, _ | ⟨b, _ | ⟨c, _ | ⟨d, text⟩⟩⟩⟩ <;>
    simp only [annotate, List.foldr_cons, List.foldr_nil, unitLength] at h hpos ⊢ <;>
    grind

/-- Where no unit is in front, the text is left or at its end. -/
theorem leaves_of_unitLength (hr : ReadsUnits before atEnd places plain leaves)
    {text : List Char} (h : (places (annotate before atEnd text).1).between = true)
    (hzero : unitLength (·.1) plain (fun spot => (places spot.2).between)
      (annotate before atEnd text).2 = 0) :
    text = [] ∧ (places atEnd).between = true ∨
      ∃ c rest, text = c :: rest ∧ leaves c (annotate before atEnd rest).1 = true := by
  obtain ⟨hb, he, ht, ho, hee, hte, hoe, hs, hl⟩ := hr
  rcases text with _ | ⟨a, _ | ⟨b, _ | ⟨c, _ | ⟨d, text⟩⟩⟩⟩ <;>
    simp only [annotate, List.foldr_cons, List.foldr_nil, unitLength] at h hzero ⊢ <;>
    grind

theorem readUnits_annotate (hr : ReadsUnits before atEnd places plain leaves)
    {text : List Char} (h : (places (annotate before atEnd text).1).between = true) :
    ∃ rest, (readUnits (·.1) plain (fun spot => (places spot.2).between)
        (annotate before atEnd text).2).2 = (annotate before atEnd rest).2 ∧
      (rest = [] ∧ (places atEnd).between = true ∨
        ∃ c tail, rest = c :: tail ∧ leaves c (annotate before atEnd tail).1 = true) := by
  generalize hs : (annotate before atEnd text).2 = spots
  fun_induction readUnits (·.1) plain (fun spot : Char × α => (places spot.2).between) spots
    generalizing text with
  | case1 spots length =>
    rename_i hzero
    subst hs
    exact ⟨text, rfl, leaves_of_unitLength hr h hzero⟩
  | case2 spots length hpos units rest hrest =>
    rename_i ih
    subst hs
    simp only [hrest] at ih
    exact ih (between_drop_unitLength hr h hpos) (drop_annotate ..).symm

end

theorem readUnits_ne_nil {α : Type} {char : α → Char} {plain : Char → Bool} {viable : α → Bool}
    {text : List α} (h : unitLength char plain viable text ≠ 0) :
    (readUnits char plain viable text).1 ≠ [] := by
  rw [readUnits, dif_neg h]
  cases text with
  | nil => exact absurd rfl h
  | cons a text => simp [h]

theorem isWeak_of_isCode {c : Char} (h : isCode c = true) : isWeak c = false := by
  obtain ⟨prim, hp⟩ := Option.isSome_iff_exists.1 h
  rw [← Prim.code_of_ofCode? hp]
  cases prim <;> decide

/-- The separator text of a type sequence ends at a code. -/
theorem readsUnits_lead : ReadsUnits SequencePlaces.before .atEnd (·.lead) isWeak
    fun c a => isCode c && a.body.between where
  between _ _ := rfl
  escaping _ _ := rfl
  twoLeft _ _ := rfl
  oneLeft _ _ := rfl
  escaping_atEnd := rfl
  twoLeft_atEnd := rfl
  oneLeft_atEnd := rfl
  plain_slash := by decide
  of_leaves c a h := by
    have : isCode '\\' = false := by decide
    grind [isWeak_of_isCode]

theorem readsUnits_keyLead (atEnd : KeyPlaces) (ha : atEnd.key = .none) :
    ReadsUnits KeyPlaces.before atEnd (·.key.lead) isWeak
      fun c a => isCode c && a.key.body.between where
  between _ _ := rfl
  escaping _ _ := rfl
  twoLeft _ _ := rfl
  oneLeft _ _ := rfl
  escaping_atEnd := by rw [ha]; rfl
  twoLeft_atEnd := by rw [ha]; rfl
  oneLeft_atEnd := by rw [ha]; rfl
  plain_slash := by decide
  of_leaves c a h := by
    have : isCode '\\' = false := by decide
    grind [isWeak_of_isCode]

theorem readsUnits_keyBody (atEnd : KeyPlaces) (ha : atEnd.key = .none) :
    ReadsUnits KeyPlaces.before atEnd (·.key.body) (fun c => isWeak c || isCode c)
      fun c a => c = '*' && a.key.starred || c = ')' && a.closed where
  between c a := by
    simp only [KeyPlaces.before, SequencePlaces.before, Places.before]
    grind
  escaping _ _ := rfl
  twoLeft _ _ := rfl
  oneLeft _ _ := rfl
  escaping_atEnd := by rw [ha]; rfl
  twoLeft_atEnd := by rw [ha]; rfl
  oneLeft_atEnd := by rw [ha]; rfl
  plain_slash := by decide
  of_leaves c a h := by
    have hs : isWeak '*' = false ∧ isCode '*' = false := by decide
    have hc : isWeak ')' = false ∧ isCode ')' = false := by decide
    grind

theorem readUnits_closed {atEnd : KeyPlaces} (ha : atEnd.closed = false)
    (he : atEnd.sep.escaping = false) {text : List Char}
    (h : (annotate KeyPlaces.before atEnd text).1.closed = true) :
    (readUnits (·.1) isPlain (fun spot : Char × KeyPlaces => spot.2.sep.between)
      (annotate KeyPlaces.before atEnd text).2).1 ≠ [] := by
  have hlength : unitLength (·.1) isPlain (fun spot : Char × KeyPlaces => spot.2.sep.between)
      (annotate KeyPlaces.before atEnd text).2 ≠ 0 := by
    rcases text with _ | ⟨a, _ | ⟨b, _ | ⟨c, _ | ⟨d, text⟩⟩⟩⟩ <;>
      simp only [annotate, List.foldr_cons, List.foldr_nil, unitLength, KeyPlaces.before,
        Places.before] at h ⊢ <;>
      grind
  exact readUnits_ne_nil hlength

/-- The key of a keyed container has separator text behind it. -/
theorem splitKey_sep_ne_nil {atEnd : KeyPlaces} (hk : atEnd.key = .none)
    (ha : atEnd.closed = false) (he : atEnd.sep.escaping = false) {text : List Char}
    (h : (annotate KeyPlaces.before atEnd text).1.key.lead.between = true) :
    (splitKey (annotate KeyPlaces.before atEnd text).2).2.1 ≠ [] := by
  obtain ⟨body, hlead, ⟨-, hend⟩ | ⟨c, tail, rfl, hcode⟩⟩ :=
    readUnits_annotate (readsUnits_keyLead atEnd hk) h
  · rw [hk] at hend
    cases hend
  have hbody : (annotate KeyPlaces.before atEnd (c :: tail)).1.key.body.between = true := by
    show (KeyPlaces.before c (annotate KeyPlaces.before atEnd tail).1).key.body.between = true
    rw [(readsUnits_keyBody atEnd hk).between]
    grind
  obtain ⟨rest, hread, ⟨-, hend⟩ | ⟨c', closing, rfl, hleaves⟩⟩ :=
    readUnits_annotate (readsUnits_keyBody atEnd hk) hbody
  · rw [hk] at hend
    cases hend
  have hstar : ∃ tail, ((annotate KeyPlaces.before atEnd (c' :: closing)).2.drop
      ((((annotate KeyPlaces.before atEnd (c' :: closing)).2.take 1).map (·.1)
        |>.filter (· = '*')).length + 1)) = (annotate KeyPlaces.before atEnd tail).2 ∧
      (annotate KeyPlaces.before atEnd tail).1.closed = true := by
    by_cases hc : c' = '*'
    · subst hc
      cases closing with
      | nil => simp [annotate, hk, SequencePlaces.none] at hleaves
      | cons d tail =>
        refine ⟨tail, by simp [annotate], ?_⟩
        simp only [annotate, List.foldr_cons, KeyPlaces.before, SequencePlaces.before] at hleaves ⊢
        grind
    · exact ⟨closing, by simp [annotate, hc], by simp_all⟩
  obtain ⟨tail, hdrop, hclosed⟩ := hstar
  simp only [splitKey, hlead, hread, hdrop]
  exact readUnits_closed ha he hclosed

end RecordStore.Format
