import RecordStore.Proofs.PairSplits
import RecordStore.Proofs.UnescapedHeads

/-!
# Formats without escapes have unique derivations

A text without backslashes is a format exactly if it has a derivation in the grammar. It then has
one only, and the schema that is read is that of the derivation: the forms that are tried do not
overlap, and the sides of a pair can be told apart by their parentheses.

## Main statements

* `Format.Parses.exists_derivation` — a text that is read has a derivation.
* `Format.parseAt_of_rest` — a pair is found by trying every run on every text, whether its
  parentheses match or not.
* `Format.Derivation.parseAt_text` — a derived text is read as the schema of its derivation.
* `Format.parseAt_of_unescaped` — reading is by the unique derivation.
-/

namespace RecordStore.Format

/-! ## Derivations of what is read -/

/-- A text without escapes that is read has a derivation. -/
theorem Parses.exists_derivation {text : List Char} {ordinal : Nat} {s : Schema}
    (hp : Parses text ordinal s) (h : '\\' ∉ text) : ∃ d : Derivation, d.text = text := by
  induction hp with
  | flat hn =>
    obtain ⟨types, rfl⟩ := exists_flatDerivation h hn
    exact ⟨.flat types, rfl⟩
  | sequence hv he hs ih =>
    obtain ⟨args, sep, rfl⟩ := VectorText.exists_text h hv
    obtain ⟨element, helement⟩ := ih (by simp_all)
    exact ⟨.sequence args element sep, by rw [Derivation.text, helement]⟩
  | set ht hk hs =>
    obtain ⟨ordered, args, key, sep, rfl⟩ := SetText.exists_text h ht
    exact ⟨.set ordered args key sep, rfl⟩
  | map hm hk hv hks hs ih =>
    obtain ⟨ordered, args, key, keySep, sep, rfl⟩ := MapText.exists_text h hm
    obtain ⟨value, hvalue⟩ := ih (by simp_all)
    exact ⟨.map ordered args key keySep value sep, by rw [Derivation.text, hvalue]⟩
  | @pair first sep second _ start _ _ _ hf hr hrun hs ih₁ ih₂ =>
    obtain ⟨left, hleft⟩ := ih₁ (by simp_all [pairText])
    obtain ⟨right, hright⟩ := ih₂ (by simp_all [pairText])
    have hsep := (exists_of_mem_runsFrom h hrun).1
    refine ⟨.pair left ⟨sep, hsep, ne_nil_of_mem_runsFrom hrun⟩ right, ?_⟩
    show pairText left.text sep right.text = pairText first sep second
    rw [hleft, hright]

/-! ## Texts of derivations -/

namespace Derivation

theorem text_ne_nil (d : Derivation) : d.text ≠ [] := by
  cases d with
  | flat types =>
    obtain ⟨lead, fields, hne, starred⟩ := types
    cases fields with
    | nil => exact absurd rfl hne
    | cons field fields => simp [text, FlatDerivation.text, FlatDerivation.body, FieldText.chars]
  | _ => simp [text]

theorem matched_flat (types : FlatDerivation) : Matched types.text := by
  refine .of_neutral fun c hc => ?_
  have hopen : '(' ∉ types.text := types.notMem_text (by decide) (by decide)
  have hclose : ')' ∉ types.text := types.notMem_text (by decide) (by decide)
  have hslash := types.slash_notMem_text
  simp [isNeutral, ne_of_mem_of_not_mem hc hopen, ne_of_mem_of_not_mem hc hclose,
    ne_of_mem_of_not_mem hc hslash]

theorem matched_sep (sep : SepText) : Matched sep.chars :=
  fun depth _ => closes_sep_append sep depth

/-- The letter and the arguments of a container hold no parentheses. -/
theorem matched_head {c : Char} (hc : isNeutral c = true) {args : List ArgText}
    (h : '\\' ∉ argsText args) : Matched (c :: argsText args) := by
  refine .of_neutral (List.forall_mem_cons.2 ⟨hc, fun d hd => ?_⟩)
  have hopen : '(' ∉ argsText args := notMem_argsText args (by decide) (by decide)
  have hclose : ')' ∉ argsText args := notMem_argsText args (by decide) (by decide)
  simp [isNeutral, ne_of_mem_of_not_mem hd hopen, ne_of_mem_of_not_mem hd hclose,
    ne_of_mem_of_not_mem hd h]

theorem isNeutral_keyedLetter (ordered : Bool) : isNeutral (keyedLetter ordered) = true := by
  cases ordered <;> decide

theorem matched_text (d : Derivation) (h : '\\' ∉ d.text) : Matched d.text := by
  induction d with
  | flat types => exact matched_flat types
  | sequence args element sep ih =>
    have htext : text (.sequence args element sep) =
        'V' :: argsText args ++ ('(' :: element.text ++ [')']) ++ sep.chars := by simp [text]
    rw [htext] at h ⊢
    simp only [List.mem_append, List.mem_cons, not_or] at h
    have helement := (ih (by simp_all)).parens
    exact ((matched_head (by decide) (by simp_all)).append helement).append (matched_sep sep)
  | set ordered args key sep =>
    have htext : text (.set ordered args key sep) =
        keyedLetter ordered :: argsText args ++ ('(' :: key.text ++ [')']) ++ sep.chars := by
      simp [text]
    rw [htext] at h ⊢
    have hargs : '\\' ∉ argsText args := by simp_all
    have hhead := matched_head (isNeutral_keyedLetter ordered) hargs
    exact (hhead.append (matched_flat key).parens).append (matched_sep sep)
  | map ordered args key keySep value sep ih =>
    have htext : text (.map ordered args key keySep value sep) =
        keyedLetter ordered :: argsText args ++ ('(' :: key.text ++ [')']) ++ keySep.chars ++
          ('(' :: value.text ++ [')']) ++ sep.chars := by simp [text]
    rw [htext] at h ⊢
    have hargs : '\\' ∉ argsText args := by simp_all
    have hhead := matched_head (isNeutral_keyedLetter ordered) hargs
    have hkey := (hhead.append (matched_flat key).parens).append (matched_sep keySep)
    exact (hkey.append (ih (by simp_all)).parens).append (matched_sep sep)
  | pair first sep second ih₁ ih₂ =>
    have htext : text (.pair first sep second) =
        ['P'] ++ ('(' :: first.text ++ [')']) ++ sep.chars ++ ('(' :: second.text ++ [')']) := by
      simp [text]
    rw [htext] at h ⊢
    have hfirst := (ih₁ (by simp_all)).parens
    have hsecond := (ih₂ (by simp_all)).parens
    have hletter : Matched ['P'] := .of_neutral (List.forall_mem_singleton.2 rfl)
    exact ((hletter.append hfirst).append (matched_sep sep)).append hsecond

end Derivation

/-! ## Forms in turn -/

section

variable {text : List Char} {ordinal : Nat}

/-- A text is no type sequence if it begins with a letter that is no code. -/
theorem parseFlat?_eq_none {c : Char} (hw : isWeak c = false) (hc : isCode c = false)
    (hs : c ≠ '\\') (rest : List Char) : parseFlat? (c :: rest) ordinal = none := by
  have hlead : ¬ (annotate SequencePlaces.before .atEnd (c :: rest)).1.lead.between = true := by
    show ¬ (SequencePlaces.before c _).lead.between = true
    rw [readsUnits_lead.between]
    simp [hw, hc, hs]
  simp only [parseFlat?, TypeSequence.read?, if_neg hlead, Option.map_none]

theorem parseFlat?_keyed (ordered : Bool) (rest : List Char) :
    parseFlat? (keyedLetter ordered :: rest) ordinal = none := by
  cases ordered <;> exact parseFlat?_eq_none (by decide) (by decide) (by decide) rest

theorem VectorText.read?_keyed (ordered : Bool) (rest : List Char) :
    VectorText.read? (keyedLetter ordered :: rest) = none := by
  cases ordered <;> rfl

theorem parseKey_text (key : FlatDerivation) :
    parseKey key.text ordinal = .ok (key.node ordinal) := by
  rw [parseKey, key.parseFlat?_text]
  rfl

end

/-! ## Pairs

The sides of a pair are read only if their parentheses match. Nothing is lost by that, since those
of every text that can be read do. -/

theorem isBalanced_of_parseAt {text : List Char} (h : '\\' ∉ text) {ordinal : Nat} {s : Schema}
    (hs : parseAt text ordinal = .ok s) : isBalanced text = true := by
  obtain ⟨d, rfl⟩ := (parses_of_parseAt hs).exists_derivation h
  exact (d.matched_text h).isBalanced

/-- A side is read alike with and without regard to its parentheses. -/
theorem side?_eq {text : List Char} (h : '\\' ∉ text) (ordinal : Nat) :
    side? text ordinal = (parseAt text ordinal).toOption := by
  unfold side?
  cases hs : parseAt text ordinal with
  | error fault => simp [Except.toOption]
  | ok s => simp [isBalanced_of_parseAt h hs]

section

variable {text : List Char} (ordinal : Nat)

/-- A side of a candidate, read with no regard to its parentheses. -/
def firstSide (c : Candidate text) : Option Schema := (parseAt c.first (ordinal + 1)).toOption

def secondSide (c : Candidate text) (first : Schema) : Option Schema :=
  (parseAt c.second (ordinal + 1 + first.size)).toOption

variable {ordinal}

/-- A text of no other form is read by the first run between sides that can be read, if it is the
pair of them. -/
theorem parseAt_of_rest (h : '\\' ∉ text) (hf : parseFlat? text ordinal = none)
    (hv : VectorText.read? text = none) (ht : SetText.read? text = none)
    (hm : MapText.read? text = none) :
    parseAt text ordinal = pairOf ordinal
      (search text (firstSide ordinal) (secondSide ordinal) (separatorRuns text)).2 := by
  have hsearch : search text (fun c => side? c.first (ordinal + 1))
      (fun c first => side? c.second (ordinal + 1 + first.size)) (separatorRuns text) =
      search text (firstSide ordinal) (secondSide ordinal) (separatorRuns text) :=
    search_congr
      (fun _ _ c hc => side?_eq (fun hd => h (mem_of_candidate? hc (.inl hd))) _)
      (fun _ _ c hc _ => side?_eq (fun hd => h (mem_of_candidate? hc (.inr hd))) _)
  rw [parseAt_of_sides hf hv ht hm]
  by_cases hlike : isPairLike text = true
  · rw [pairRuns, if_pos hlike, hsearch]
  · -- No run is tried on a text that cannot be a pair, and none could be framed as one.
    have hframe (c : Candidate text) : text ≠ pairText c.first c.sep c.second := fun htext =>
      hlike (htext ▸ isPairLike_pairText _ _ _)
    cases (search text (firstSide ordinal) (secondSide ordinal) (separatorRuns text)).2 with
    | none => simp [pairRuns, hlike, search, pairOf]
    | some split => simp [pairRuns, hlike, search, pairOf, hframe split.candidate]

end

/-! ## Reading derived texts -/

namespace Derivation

theorem parseAt_pair {first second : Derivation} (sep : SepText) {ordinal : Nat}
    {left right : Schema} (hf : '\\' ∉ first.text) (hs : '\\' ∉ second.text)
    (hleft : parseAt first.text (ordinal + 1) = .ok left)
    (hright : parseAt second.text (ordinal + 1 + left.size) = .ok right) :
    parseAt (pairText first.text sep.chars second.text) ordinal =
      .ok (.pair ⟨ordinal, String.ofList (pairText first.text sep.chars second.text)⟩ left right
        sep.bytes) := by
  have hslash : '\\' ∉ pairText first.text sep.chars second.text := by
    have hsep : '\\' ∉ sep.chars := sep.notMem_chars (by decide)
    simp [pairText, hf, hs, hsep]
  have hflat : parseFlat? (pairText first.text sep.chars second.text) ordinal = none :=
    parseFlat?_eq_none (by decide) (by decide) (by decide) _
  obtain ⟨c, hfirst, hsep, hsecond, hsearch⟩ : ∃ c : Candidate _, c.first = first.text ∧
      c.sep = sep.chars ∧ c.second = second.text ∧
        (search _ (firstSide ordinal) (secondSide ordinal)
          (separatorRuns (pairText first.text sep.chars second.text))).2 =
            some ⟨c, left, right⟩ := by
    refine search_pairText sep (first.matched_text hf) (second.matched_text hs)
      first.text_ne_nil second.text_ne_nil hf hs ?_ ?_ ?_
    · intro c left' hc hbalanced
      rw [secondSide, Option.eq_none_iff_forall_not_mem]
      intro s hs
      rw [isBalanced_of_parseAt hc (toOption_eq_some.1 hs)] at hbalanced
      cases hbalanced
    · intro c hc
      rw [firstSide, hc, hleft, Except.toOption]
    · intro c hc
      rw [secondSide, hc, hright, Except.toOption]
  rw [parseAt_of_rest hslash hflat rfl rfl rfl, hsearch]
  simp only [pairOf, hfirst, hsep, hsecond, if_true, sep.unescape_chars, Except.map]

/-- A derived text is read as the schema of its derivation. -/
theorem parseAt_text (d : Derivation) (h : '\\' ∉ d.text) (ordinal : Nat) :
    parseAt d.text ordinal = .ok (d.schema ordinal) := by
  induction d generalizing ordinal with
  | flat types => exact parseAt_of_flat (types.parseFlat?_text ordinal)
  | sequence args element sep ih =>
    have helement : '\\' ∉ element.text := by simp_all [text]
    have hread := VectorText.read?_text args element.text_ne_nil sep
    have hflat : parseFlat? (text (.sequence args element sep)) ordinal = none :=
      parseFlat?_eq_none (by decide) (by decide) (by decide) _
    rw [parseAt_of_vector hflat hread]
    simp only [ih helement, sep.unescape_chars, ok_bind]
    rfl
  | set ordered args key sep =>
    have hread := SetText.read?_text ordered args key sep
    have hflat : parseFlat? (text (.set ordered args key sep)) ordinal = none :=
      parseFlat?_keyed ordered _
    have hvector : VectorText.read? (text (.set ordered args key sep)) = none :=
      VectorText.read?_keyed ordered _
    rw [parseAt_of_set hflat hvector hread]
    simp only [parseKey_text, sep.unescape_chars, ok_bind]
    rfl
  | map ordered args key keySep value sep ih =>
    have hvalue : '\\' ∉ value.text := by simp_all [text]
    have hread := MapText.read?_text ordered args key keySep value.text_ne_nil hvalue sep
    have hflat : parseFlat? (text (.map ordered args key keySep value sep)) ordinal = none :=
      parseFlat?_keyed ordered _
    have hvector : VectorText.read? (text (.map ordered args key keySep value sep)) = none :=
      VectorText.read?_keyed ordered _
    have hbehind : '\\' ∉ keySep.chars ++ '(' :: value.text ++ ')' :: sep.chars := by
      simp_all [text]
    have hset := SetText.read?_eq_none ordered args key hbehind (by simp)
    have htext : text (.map ordered args key keySep value sep) =
        keyedLetter ordered :: argsText args ++ '(' :: key.text ++ ')' ::
          (keySep.chars ++ '(' :: value.text ++ ')' :: sep.chars) := by simp [text]
    rw [← htext] at hset
    rw [parseAt_of_map hflat hvector hset hread]
    simp only [parseKey_text, ih hvalue, keySep.unescape_chars, sep.unescape_chars, ok_bind]
    rfl
  | pair first sep second ih₁ ih₂ =>
    have hf : '\\' ∉ first.text := by simp_all [text]
    have hs : '\\' ∉ second.text := by simp_all [text]
    exact parseAt_pair sep hf hs (ih₁ hf _) (ih₂ hs _)

end Derivation

/-- A text without escapes is a format exactly if it has a derivation. The derivation is unique,
and what is read is its schema. -/
theorem parseAt_of_unescaped {text : List Char} (h : '\\' ∉ text) (ordinal : Nat) :
    ((∃ s, parseAt text ordinal = .ok s) ↔ ∃ d : Derivation, d.text = text) ∧
      (∀ d e : Derivation, d.text = text → e.text = text → d = e) ∧
        ∀ d : Derivation, d.text = text → parseAt text ordinal = .ok (d.schema ordinal) := by
  have hread (d : Derivation) (hd : d.text = text) :
      parseAt text ordinal = .ok (d.schema ordinal) := by
    subst hd
    exact d.parseAt_text h ordinal
  refine ⟨⟨?_, ?_⟩, ?_, hread⟩
  · rintro ⟨s, hs⟩
    exact (parses_of_parseAt hs).exists_derivation h
  · rintro ⟨d, hd⟩
    exact ⟨_, hread d hd⟩
  · intro d e hd he
    have hschema := (hread d hd).symm.trans (hread e he)
    exact Derivation.schema_injective ordinal (Except.ok.inj hschema)

/-- A pair whose sides hold separator text of their own, one of them before the separator. -/
def pairSample : Derivation :=
  .pair
    (.sequence [⟨['x'], List.forall_mem_singleton.2 rfl, List.cons_ne_nil _ _⟩]
      (.flat ⟨.empty, [⟨.i32, .empty⟩], List.cons_ne_nil _ _, true⟩) (.single '|' rfl))
    (.single 'a' rfl)
    (.map true [] ⟨.empty, [⟨.char, ⟨['|'], List.forall_mem_singleton.2 rfl⟩⟩],
        List.cons_ne_nil _ _, false⟩
      (.single '=' rfl) (.flat ⟨.empty, [⟨.u16, .empty⟩], List.cons_ne_nil _ _, false⟩)
      (.single ';' rfl))

theorem parseAt_pairSample :
    '\\' ∉ "P(V,x(l*)|)a(T(c|)=(S);)".toList ∧
      (∀ d : Derivation, d.text = "P(V,x(l*)|)a(T(c|)=(S);)".toList → d = pairSample) ∧
        parseAt "P(V,x(l*)|)a(T(c|)=(S);)".toList 0 = .ok
          (.pair ⟨0, "P(V,x(l*)|)a(T(c|)=(S);)"⟩
            (.sequence ⟨1, "V,x(l*)|"⟩ (.flat ⟨⟨2, "l*"⟩, .structs ⟨[], [⟨.i32, []⟩]⟩⟩) [0x7c]
              ["x"])
            (.map ⟨3, "T(c|)=(S);"⟩
              ⟨⟨⟨4, "c|"⟩, .struct ⟨[], [⟨.char, [0x7c]⟩]⟩⟩, [0x3d], true, []⟩
              (.flat ⟨⟨5, "S"⟩, .primitive .u16⟩) [0x3b])
            [0x61]) := by
  have h : '\\' ∉ "P(V,x(l*)|)a(T(c|)=(S);)".toList := by decide
  obtain ⟨-, hunique, hread⟩ := parseAt_of_unescaped h 0
  refine ⟨h, fun d hd => hunique d pairSample hd (by decide), ?_⟩
  exact (hread pairSample (by decide)).trans (congrArg Except.ok (by decide))

end RecordStore.Format
