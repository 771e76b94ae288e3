import RecordStore.Format.Collision
import RecordStore.Format.Head
import RecordStore.Format.Split

/-!
# Schemas of format strings

A format is read by trying, in this order, a type sequence, a sequence, a set, a map and a pair.
The first form that the whole text has decides; faults inside it are final. The sides of a pair
are read only if their parentheses match, as those of every format do.

## Main definitions

* `parseAt` — the schema of a format whose root has a given ordinal.
* `parse` — the schema of a format string without colliding separators.
-/

namespace RecordStore

namespace Format

/-! ## Parts are shorter than their text -/

theorem length_splitArgs?_lt {text rest : List Char} {args : List String}
    (h : splitArgs? text = some (args, rest)) : rest.length < text.length := by
  simp only [splitArgs?] at h
  split at h
  · rename_i c tail _ hd _
    simp only [Option.some.injEq, Prod.mk.injEq] at h
    obtain ⟨-, rfl⟩ := h
    have := (List.dropWhile_suffix (l := text) (· != '(')).length_le
    rw [hd] at this
    exact this
  · simp at h

theorem VectorText.length_element_lt {text : List Char} {parts : VectorText}
    (h : VectorText.read? text = some parts) : parts.element.length < text.length := by
  unfold VectorText.read? at h
  split at h
  · simp only [Option.bind_eq_bind, Option.bind_eq_some_iff, Prod.exists, Option.pure_def,
      Option.some.injEq] at h
    obtain ⟨args, rest, ha, element, sep, hb, rfl⟩ := h
    have h₁ := length_splitArgs?_lt ha
    have h₂ := length_splitBody?_lt hb
    rw [length_annotate] at h₂
    simp only [List.length_cons]
    omega
  · simp at h

theorem length_splitKey_le (spots : List (Char × KeyPlaces)) :
    (splitKey spots).2.2.length ≤ spots.length := by
  simp only [splitKey]
  refine Nat.le_trans (length_readUnits_le ..) ?_
  simp only [List.length_drop]
  refine Nat.le_trans (Nat.sub_le ..) ?_
  exact Nat.le_trans (length_readUnits_le ..) (length_readUnits_le ..)

theorem MapText.length_value_lt {text : List Char} {parts : MapText}
    (h : MapText.read? text = some parts) : parts.value.length + 1 < text.length := by
  unfold MapText.read? at h
  split at h
  · simp at h
  · simp only [Option.bind_eq_bind, Option.bind_eq_some_iff, Prod.exists, Option.pure_def] at h
    obtain ⟨ordered, -, args, rest, ha, h⟩ := h
    split at h
    · simp only [Option.bind_eq_some_iff, Prod.exists, Option.some.injEq] at h
      obtain ⟨value, sep, hb, rfl⟩ := h
      have h₁ := length_splitArgs?_lt ha
      let spots := (annotate KeyPlaces.before .atMapEnd rest).2
      have h₂ : (splitKey spots).2.2.length ≤ spots.length := length_splitKey_le spots
      have h₃ : value.length < ((splitKey spots).2.2.drop 1).length := length_splitBody?_lt hb
      have h₄ : spots.length = rest.length := length_annotate ..
      simp only [List.length_drop] at h₃
      simp only [List.length_cons]
      omega
    · simp at h

/-! ## The grammar -/

def parseKey (text : List Char) (ordinal : Nat) : Except FormatError FlatNode :=
  (parseFlat? text ordinal).getD (.error (.noViableParse (String.ofList text)))

def pairText (first sep second : List Char) : List Char :=
  'P' :: '(' :: first ++ ')' :: sep ++ '(' :: second ++ [')']

def isPairLike (text : List Char) : Bool :=
  ['P', '('].isPrefixOf text && text.getLast? = some ')'

theorem isPairLike_pairText (first sep second : List Char) :
    isPairLike (pairText first sep second) = true := by
  have h : pairText first sep second =
      ('P' :: '(' :: first ++ ')' :: sep ++ '(' :: second) ++ [')'] := by simp [pairText]
  simp only [isPairLike, Bool.and_eq_true, decide_eq_true_eq]
  exact ⟨by simp [pairText, List.isPrefixOf], by rw [h, List.getLast?_concat]⟩

/-- The schema of a format whose root has the given ordinal. -/
def parseAt (text : List Char) (ordinal : Nat) : Except FormatError Schema :=
  let label : Label := ⟨ordinal, String.ofList text⟩
  match parseFlat? text ordinal with
  | some node => node.map .flat
  | none =>
    match hv : VectorText.read? text with
    | some parts => do
      have := VectorText.length_element_lt hv
      let element ← parseAt parts.element (ordinal + 1)
      let sep ← unescape parts.sep
      return .sequence label element sep parts.args
    | none =>
      match SetText.read? text with
      | some parts => do
        let key ← parseKey parts.key (ordinal + 1)
        let sep ← unescape parts.sep
        return .set label ⟨key, sep, parts.ordered, parts.args⟩
      | none =>
        match hm : MapText.read? text with
        | some parts => do
          have := MapText.length_value_lt hm
          let key ← parseKey parts.key (ordinal + 1)
          let value ← parseAt parts.value (ordinal + 2)
          let keySep ← unescape parts.keySep
          let sep ← unescape parts.sep
          return .map label ⟨key, keySep, parts.ordered, parts.args⟩ value sep
        | none =>
          let readFirst (c : Candidate text) :=
            have := c.first_lt
            if isBalanced c.first then (parseAt c.first (ordinal + 1)).toOption else none
          let readSecond (c : Candidate text) (first : Schema) :=
            have := c.second_lt
            if isBalanced c.second then
              (parseAt c.second (ordinal + 1 + first.size)).toOption
            else none
          let runs := if isPairLike text then separatorRuns text else []
          match (search text readFirst readSecond runs).2 with
          | some ⟨c, first, second⟩ =>
            if text = pairText c.first c.sep c.second then
              (unescape c.sep).map (.pair label first second)
            else .error (.noViableParse label.source)
          | none => .error (.noViableParse label.source)
termination_by text.length

end Format

/-- The schema of a format string, with its nodes numbered from zero and no colliding
separators. -/
def parse (format : String) : Except FormatError Schema := do
  let schema ← Format.parseAt format.toList 0
  match schema.collision? with
  | some fault => .error fault
  | none => return schema

end RecordStore
