import RecordStore.Proofs.UniqueDerivations
import RecordStore.Proofs.WellFormedTrees

/-!
# Separators with escapes

A separator behind the parenthesis of a sequence is written in tokens: plain characters, escapes of
one character and hexadecimal escapes. The body of the parenthesis is taken to be as long as it can
be, so it ends at the last parenthesis with separator text behind it. That is the right one unless
an escaped parenthesis stands in the separator with another token behind it.

## Main definitions

* `Format.SepToken` — the tokens of separators.
* `Format.vectorText` — the text of a sequence without arguments.

## Main statements

* `Format.VectorText.read?_vectorText` — where the body of a sequence ends.
* `Format.parseAt_vectorText_iff` — a sequence is read with its element and separator if and only if
  no token but the last one is an escaped parenthesis.
-/

namespace RecordStore.Format

/-! ## Tokens -/

inductive SepToken
  | plain (c : Char) (h : isPlain c = true)
  | hex (high low : Char) (hh : (Escape.hexValue? high).isSome = true)
    (hl : (Escape.hexValue? low).isSome = true)
  | escape (c : Char) (h : c ≠ 'x')

namespace SepToken

def chars : SepToken → List Char
  | plain c _ => [c]
  | hex high low _ _ => ['\\', 'x', high, low]
  | escape c _ => ['\\', c]

def bytes : SepToken → Bytes
  | plain c _ => String.utf8EncodeChar c
  | hex high low hh hl =>
    [UInt8.ofNat (16 * (Escape.hexValue? high).get hh + (Escape.hexValue? low).get hl)]
  | escape c _ => Escape.letterBytes c

def close : SepToken := .escape ')' (by decide)

theorem chars_ne_nil (token : SepToken) : token.chars ≠ [] := by
  cases token <;> simp [chars]

theorem eq_close_of_mem {token : SepToken} (h : ')' ∈ token.chars) : token = close := by
  have hdigit : Escape.hexValue? ')' = none := by decide
  cases token with
  | plain c hc =>
    obtain rfl := List.mem_singleton.1 h
    cases hc
  | hex high low hh hl =>
    simp only [chars, List.mem_cons, List.not_mem_nil, or_false] at h
    rcases h with h | h | rfl | rfl
    · cases h
    · cases h
    · simp [hdigit] at hh
    · simp [hdigit] at hl
  | escape c hc =>
    simp only [chars, List.mem_cons, List.not_mem_nil, or_false] at h
    rcases h with h | rfl
    · cases h
    · rfl

end SepToken

def sepChars (tokens : List SepToken) : List Char := tokens.flatMap SepToken.chars

def sepBytes (tokens : List SepToken) : Bytes := tokens.flatMap SepToken.bytes

section

variable {tokens : List SepToken}

theorem sepChars_cons (token : SepToken) (tokens : List SepToken) :
    sepChars (token :: tokens) = token.chars ++ sepChars tokens :=
  List.flatMap_cons

theorem sepChars_append (front back : List SepToken) :
    sepChars (front ++ back) = sepChars front ++ sepChars back :=
  List.flatMap_append

theorem sepChars_ne_nil (h : tokens ≠ []) : sepChars tokens ≠ [] := by
  cases tokens with
  | nil => exact absurd rfl h
  | cons token tokens => simp [sepChars_cons, token.chars_ne_nil]

/-- Tokens are unescaped one by one. -/
theorem unescape_sepChars (tokens : List SepToken) :
    unescape (sepChars tokens) = .ok (sepBytes tokens) := by
  rw [unescape, mapError_eq_ok]
  induction tokens with
  | nil => rfl
  | cons token tokens ih =>
    rw [sepChars_cons, sepBytes, List.flatMap_cons]
    cases token with
    | plain c hc =>
      have hslash : c ≠ '\\' := by
        rintro rfl
        cases hc
      simp [SepToken.chars, Escape.read, hslash, ih, Except.map, sepBytes, SepToken.bytes]
    | hex high low hh hl =>
      obtain ⟨h, hh'⟩ := Option.isSome_iff_exists.1 hh
      obtain ⟨l, hl'⟩ := Option.isSome_iff_exists.1 hl
      simp [SepToken.chars, Escape.read, hh', hl', ih, Except.map, sepBytes, SepToken.bytes]
    | escape c hc =>
      simp [SepToken.chars, Escape.read, hc, ih, Except.map, sepBytes, SepToken.bytes]

/-! ## The end of a body -/

theorem between_sepChars (tokens : List SepToken) :
    (annotate BodyPlaces.before .atEnd (sepChars tokens)).1.sep.between = true := by
  induction tokens with
  | nil => rfl
  | cons token tokens ih =>
    have hr := readsUnits_bodySep
    rw [sepChars_cons]
    generalize sepChars tokens = rest at *
    cases token with
    | plain c hc =>
      show (BodyPlaces.before c (annotate _ _ rest).1).sep.between = true
      simp [hr.between, hc, ih]
    | hex high low hh hl =>
      show (BodyPlaces.before '\\' (.before 'x' (.before high
        (.before low (annotate _ _ rest).1)))).sep.between = true
      simp [hr.between, hr.escaping, hr.twoLeft, hr.oneLeft, ih]
    | escape c hc =>
      show (BodyPlaces.before '\\' (.before c (annotate _ _ rest).1)).sep.between = true
      simp [hr.between, hr.escaping, ih]

theorem closed_sepChars (h : tokens ≠ []) :
    (annotate BodyPlaces.before .atEnd (sepChars tokens)).1.closed = true := by
  have hbetween := between_sepChars tokens
  obtain ⟨c, rest, hchars⟩ := List.exists_cons_of_ne_nil (sepChars_ne_nil h)
  rw [hchars] at hbetween ⊢
  exact hbetween

/-- If no token but the last one is an escaped closing parenthesis, nothing follows a closing
parenthesis. -/
theorem eq_nil_of_sepChars (h : SepToken.close ∉ tokens.dropLast) {front back : List Char}
    (hchars : sepChars tokens = front ++ ')' :: back) : back = [] := by
  induction tokens generalizing front with
  | nil => simp [sepChars] at hchars
  | cons token tokens ih =>
    rw [sepChars_cons] at hchars
    by_cases htoken : token = .close
    · -- the parenthesis of an escape that is the last token
      subst htoken
      obtain rfl : tokens = [] := by
        by_contra hne
        rw [List.dropLast_cons_of_ne_nil hne] at h
        exact h List.mem_cons_self
      obtain _ | ⟨c, _ | ⟨d, front⟩⟩ := front
      · cases hchars
      · exact (List.cons.inj (List.cons.inj hchars).2).2.symm
      · have := congrArg List.length hchars
        simp [SepToken.chars, SepToken.close, sepChars] at this
    · have hlater : SepToken.close ∉ tokens.dropLast := by
        intro hm
        have hne : tokens ≠ [] := by
          rintro rfl
          cases hm
        rw [List.dropLast_cons_of_ne_nil hne] at h
        exact h (List.mem_cons_of_mem token hm)
      have hnot : ')' ∉ token.chars := fun hm => htoken (SepToken.eq_close_of_mem hm)
      rcases List.append_eq_append_iff.1 hchars with ⟨front', -, hrest⟩ | ⟨part, hpart, hrest⟩
      · exact ih hlater hrest
      · cases part with
        | nil =>
          have hfront : sepChars tokens = [] ++ ')' :: back := hrest.symm
          exact ih hlater hfront
        | cons c part =>
          obtain rfl := (List.cons.inj hrest).1
          simp [hpart] at hnot

/-- Otherwise there is a last escaped closing parenthesis with a token behind it. -/
theorem exists_last_close (h : SepToken.close ∈ tokens.dropLast) :
    ∃ front back, tokens = front ++ .close :: back ∧ back ≠ [] ∧
      SepToken.close ∉ back.dropLast := by
  induction tokens with
  | nil => cases h
  | cons token tokens ih =>
    have hne : tokens ≠ [] := by
      rintro rfl
      cases h
    rw [List.dropLast_cons_of_ne_nil hne] at h
    by_cases hlater : SepToken.close ∈ tokens.dropLast
    · obtain ⟨front, back, rfl, hback, hlast⟩ := ih hlater
      exact ⟨token :: front, back, rfl, hback, hlast⟩
    · obtain rfl := (List.mem_cons.1 h).resolve_right hlater
      exact ⟨[], tokens, rfl, hne, hlater⟩

end

/-! ## Sequences -/

/-- The text of a sequence without arguments. -/
def vectorText (element sep : List Char) : List Char := 'V' :: '(' :: element ++ ')' :: sep

section

variable {tokens : List SepToken}

/-- The body of a sequence ends in front of separator text without an escaped closing parenthesis
before its last token. -/
theorem VectorText.read?_vectorText {element : List Char} (he : element ≠ []) (hne : tokens ≠ [])
    (h : SepToken.close ∉ tokens.dropLast) :
    VectorText.read? (vectorText element (sepChars tokens)) =
      some ⟨[], element, sepChars tokens⟩ := by
  have hbody : splitBody? (·.1) (fun spot => spot.2.closed)
      (annotate BodyPlaces.before .atEnd (element ++ ')' :: sepChars tokens)).2 =
        some (element, sepChars tokens) := by
    refine splitBody?_annotate BodyPlaces.closed he (fun front back hback => ?_)
      (closed_sepChars hne)
    rw [eq_nil_of_sepChars h hback]
    rfl
  have hargs : splitArgs? ('(' :: (element ++ ')' :: sepChars tokens)) =
      some ([], element ++ ')' :: sepChars tokens) := rfl
  simp only [vectorText, List.cons_append, VectorText.read?, hargs, Option.bind_eq_bind,
    Option.bind_some, hbody]
  rfl

theorem ne_nil_of_parseAt {text : List Char} {ordinal : ℕ} {s : Schema}
    (h : parseAt text ordinal = .ok s) : text ≠ [] := by
  have hsize := (parses_of_parseAt h).size_le
  have hpos : 0 < s.size := by
    unfold Schema.size
    split <;> omega
  rw [← List.length_pos_iff]
  omega

/-- A sequence is read as one of its element with its separator if and only if no token of the
separator but the last one is an escaped closing parenthesis. -/
theorem parseAt_vectorText_iff {text : List Char} {ordinal : ℕ} {s : Schema}
    (h : parseAt text ordinal = .ok s) (hne : tokens ≠ []) :
    unescape (sepChars tokens) = .ok (sepBytes tokens) ∧
      (parseAt (vectorText text (sepChars tokens)) ordinal =
          .ok (.sequence ⟨ordinal, String.ofList (vectorText text (sepChars tokens))⟩
            (s.renumber (ordinal + 1)) (sepBytes tokens) []) ↔
        SepToken.close ∉ tokens.dropLast) := by
  have hflat (element sep : List Char) : parseFlat? (vectorText element sep) ordinal = none :=
    parseFlat?_eq_none (by decide) (by decide) (by decide) _
  have hread (element : List Char) (he : element ≠ []) (rest : List SepToken) (hrest : rest ≠ [])
      (hlast : SepToken.close ∉ rest.dropLast) :
      parseAt (vectorText element (sepChars rest)) ordinal = do
        let element' ← parseAt element (ordinal + 1)
        return .sequence ⟨ordinal, String.ofList (vectorText element (sepChars rest))⟩ element'
          (sepBytes rest) [] := by
    rw [parseAt_of_vector (hflat _ _) (VectorText.read?_vectorText he hrest hlast)]
    simp only [unescape_sepChars, ok_bind]
  refine ⟨unescape_sepChars tokens, ?_, fun hlast => ?_⟩
  · intro hsequence hclose
    -- the element that is read goes on to the last escaped parenthesis before a token
    obtain ⟨front, back, rfl, hback, hlast⟩ := exists_last_close hclose
    have htext : vectorText text (sepChars (front ++ .close :: back)) =
        vectorText (text ++ ')' :: sepChars front ++ ['\\']) (sepChars back) := by
      simp [vectorText, sepChars_append, sepChars_cons, SepToken.close, SepToken.chars]
    rw [htext, hread _ (by simp) back hback hlast, bind_eq_ok] at hsequence
    obtain ⟨element, helement, hsame⟩ := hsequence
    have hsource := (parses_of_parseAt helement).source
    simp only [pure_eq_ok, Except.ok.injEq, Schema.sequence.injEq] at hsame
    rw [hsame.2.1, Schema.source_renumber, (parses_of_parseAt h).source] at hsource
    have := congrArg List.length (String.ofList_injective hsource)
    simp at this
  · rw [hread text (ne_nil_of_parseAt h) tokens hne hlast, parseAt_renumber text (ordinal + 1)
      ordinal, h]
    rfl

end

def closedBehindComma : List SepToken := [.plain ',' rfl, .close]

def closedBeforeComma : List SepToken := [.close, .plain ',' rfl]

theorem parseAt_closedBehindComma :
    parseAt ['l'] 0 = .ok (.flat ⟨⟨0, "l"⟩, .primitive .i32⟩) ∧ closedBehindComma ≠ [] ∧
      unescape (sepChars closedBehindComma) = .ok [0x2c, 0x29] ∧
      parseAt "V(l),\\)".toList 0 = .ok
        (.sequence ⟨0, "V(l),\\)"⟩ (.flat ⟨⟨1, "l"⟩, .primitive .i32⟩) [0x2c, 0x29] []) := by
  have hread : parseAt ['l'] 0 = .ok (.flat ⟨⟨0, "l"⟩, .primitive .i32⟩) := by decide +kernel
  have hne : closedBehindComma ≠ [] := by simp [closedBehindComma]
  have h := parseAt_vectorText_iff hread hne
  have hlast : SepToken.close ∉ closedBehindComma.dropLast := by
    simp [closedBehindComma, SepToken.close]
  exact ⟨hread, hne, h.1, h.2.2 hlast⟩

/-- With a token behind it, an escaped closing parenthesis is taken for the end of the element. -/
theorem parseAt_closedBeforeComma :
    parseAt ['l'] 0 = .ok (.flat ⟨⟨0, "l"⟩, .primitive .i32⟩) ∧ closedBeforeComma ≠ [] ∧
      vectorText ['l'] (sepChars closedBeforeComma) = "V(l)\\),".toList ∧
      unescape (sepChars closedBeforeComma) = .ok [0x29, 0x2c] ∧
      parseAt "V(l)\\),".toList 0 = .error (.noViableParse "l)\\") := by
  refine ⟨by decide +kernel, by simp [closedBeforeComma], by decide +kernel, ?_,
    by decide +kernel⟩
  exact unescape_sepChars closedBeforeComma

end RecordStore.Format
