import RecordStore.Format.Parse
import RecordStore.Proofs.Outcomes
import RecordStore.Proofs.Readings

/-!
# Schemas of format strings

What holds of every schema that a format string gives: its nodes are numbered in pre-order, it has
no more nodes than the format has characters, no flat node is without fields, and the separators
that end records are not empty.

## Main definitions

* `Format.Parses` — the forms that a format can have.
* `Format.ParsedBy` — the last step of reading one.
* `Schema.NumberedFrom`, `Schema.Separated` — what holds of the nodes of a schema.

## Main statements

* `Format.parsedBy_of_parseAt`, `Format.parses_of_parseAt` — a schema is read by one of these forms.
* `Format.VectorText.exists_of_read?`, `Format.SetText.exists_of_read?`,
  `Format.MapText.exists_of_read?` — what the parts of a container are read from.
* `parse_source`, `numberedFrom_of_parse`, `size_le_of_parse`, `separated_of_parse` — what holds of
  a schema that was parsed.
-/

namespace RecordStore

def Schema.NumberedFrom (n : Nat) : Schema → Prop
  | flat node => node.label.ordinal = n
  | sequence label element _ _ => label.ordinal = n ∧ element.NumberedFrom (n + 1)
  | set label keys => label.ordinal = n ∧ keys.node.label.ordinal = n + 1
  | map label keys value _ =>
    label.ordinal = n ∧ keys.node.label.ordinal = n + 1 ∧ value.NumberedFrom (n + 2)
  | pair label first second _ =>
    label.ordinal = n ∧ first.NumberedFrom (n + 1) ∧ second.NumberedFrom (n + 1 + first.size)

/-- Whether flat nodes have fields and the separators that end records are not empty. -/
def Schema.Separated : Schema → Prop
  | flat node => node.layout.isHollow = false
  | sequence _ element sep _ => sep ≠ [] ∧ element.Separated
  | set _ keys => keys.sep ≠ [] ∧ keys.node.layout.isHollow = false
  | map _ keys value sep =>
    keys.sep ≠ [] ∧ keys.node.layout.isHollow = false ∧ sep ≠ [] ∧ value.Separated
  | pair _ first second sep => sep ≠ [] ∧ first.Separated ∧ second.Separated

def Schema.ownArgs : Schema → List String
  | flat _ | pair .. => []
  | sequence _ _ _ args => args
  | set _ keys | map _ keys .. => keys.args

/-- Whether the arguments of each node take at most 65535 bytes. -/
def Schema.ArgsFit (s : Schema) : Prop :=
  ∀ node ∈ s.nodes, (Bytes.ofText (",".intercalate node.ownArgs)).length ≤ 65535

/-- Whether the width of each flat node with a section of its own is a number of 32 bits. Keys are
stored with their container, at any width. -/
def Schema.WidthsFit : Schema → Prop
  | flat node => node.layout.width < 2 ^ 32
  | set .. => True
  | sequence _ child _ _ | map _ _ child _ => child.WidthsFit
  | pair _ first second _ => first.WidthsFit ∧ second.WidthsFit

namespace Format

/-! ## Forms in turn -/

section

variable {text : List Char} {ordinal : Nat}

theorem parseAt_of_flat {outcome : Except FormatError FlatNode}
    (hf : parseFlat? text ordinal = some outcome) :
    parseAt text ordinal = outcome.map .flat := by
  unfold parseAt
  simp [hf]

theorem parseAt_of_vector (hf : parseFlat? text ordinal = none) {parts : VectorText}
    (hv : VectorText.read? text = some parts) :
    parseAt text ordinal = do
      let element ← parseAt parts.element (ordinal + 1)
      let sep ← unescape parts.sep
      return .sequence ⟨ordinal, String.ofList text⟩ element sep parts.args := by
  rw [parseAt]
  split
  · simp_all
  · split <;> simp_all

theorem parseAt_of_set (hf : parseFlat? text ordinal = none)
    (hv : VectorText.read? text = none) {parts : SetText}
    (ht : SetText.read? text = some parts) :
    parseAt text ordinal = do
      let key ← parseKey parts.key (ordinal + 1)
      let sep ← unescape parts.sep
      return .set ⟨ordinal, String.ofList text⟩ ⟨key, sep, parts.ordered, parts.args⟩ := by
  rw [parseAt]
  split
  · simp_all
  · split <;> simp_all

theorem parseAt_of_map (hf : parseFlat? text ordinal = none)
    (hv : VectorText.read? text = none) (ht : SetText.read? text = none) {parts : MapText}
    (hm : MapText.read? text = some parts) :
    parseAt text ordinal = do
      let key ← parseKey parts.key (ordinal + 1)
      let value ← parseAt parts.value (ordinal + 2)
      let keySep ← unescape parts.keySep
      let sep ← unescape parts.sep
      return .map ⟨ordinal, String.ofList text⟩ ⟨key, keySep, parts.ordered, parts.args⟩ value
        sep := by
  rw [parseAt]
  split
  · simp_all
  · split
    · simp_all
    · split
      · simp_all
      · split <;> simp_all

/-- A side of a pair is read if its parentheses match. -/
def side? (text : List Char) (ordinal : Nat) : Option Schema :=
  if isBalanced text then (parseAt text ordinal).toOption else none

theorem side?_eq_some {s : Schema} (h : side? text ordinal = some s) :
    parseAt text ordinal = .ok s := by
  unfold side? at h
  grind [toOption_eq_some]

def pairOf (ordinal : Nat) : Option (Split text Schema Schema) → Except FormatError Schema
  | some ⟨c, first, second⟩ =>
    if text = pairText c.first c.sep c.second then
      (unescape c.sep).map (.pair ⟨ordinal, String.ofList text⟩ first second)
    else .error (.noViableParse (String.ofList text))
  | none => .error (.noViableParse (String.ofList text))

def pairRuns (text : List Char) : List (Nat × List Char) :=
  if isPairLike text then separatorRuns text else []

/-- A text of no other form is read by the first run between sides that can be read. -/
theorem parseAt_of_sides (hf : parseFlat? text ordinal = none)
    (hv : VectorText.read? text = none) (ht : SetText.read? text = none)
    (hm : MapText.read? text = none) :
    parseAt text ordinal = pairOf ordinal (search text (fun c => side? c.first (ordinal + 1))
      (fun c first => side? c.second (ordinal + 1 + first.size)) (pairRuns text)).2 := by
  rw [parseAt]
  simp only [hf]
  split
  · simp_all
  split
  · simp_all
  split
  · simp_all
  rfl

end

/-! ## Forms -/

inductive Parses : List Char → Nat → Schema → Prop
  | flat {text : List Char} {ordinal : Nat} {node : FlatNode}
      (hn : parseFlat? text ordinal = some (.ok node)) : Parses text ordinal (.flat node)
  | sequence {text : List Char} {ordinal : Nat} {parts : VectorText} {element : Schema}
      {sep : Bytes} (hv : VectorText.read? text = some parts)
      (he : Parses parts.element (ordinal + 1) element) (hs : unescape parts.sep = .ok sep) :
      Parses text ordinal (.sequence ⟨ordinal, String.ofList text⟩ element sep parts.args)
  | set {text : List Char} {ordinal : Nat} {parts : SetText} {key : FlatNode} {sep : Bytes}
      (ht : SetText.read? text = some parts)
      (hk : parseFlat? parts.key (ordinal + 1) = some (.ok key))
      (hs : unescape parts.sep = .ok sep) :
      Parses text ordinal
        (.set ⟨ordinal, String.ofList text⟩ ⟨key, sep, parts.ordered, parts.args⟩)
  | map {text : List Char} {ordinal : Nat} {parts : MapText} {key : FlatNode} {value : Schema}
      {keySep sep : Bytes} (hm : MapText.read? text = some parts)
      (hk : parseFlat? parts.key (ordinal + 1) = some (.ok key))
      (hv : Parses parts.value (ordinal + 2) value) (hks : unescape parts.keySep = .ok keySep)
      (hs : unescape parts.sep = .ok sep) :
      Parses text ordinal
        (.map ⟨ordinal, String.ofList text⟩ ⟨key, keySep, parts.ordered, parts.args⟩ value sep)
  | pair {first sep second : List Char} {ordinal start : Nat} {left right : Schema}
      {bytes : Bytes} (hf : Parses first (ordinal + 1) left)
      (hr : Parses second (ordinal + 1 + left.size) right)
      (hrun : (start, sep) ∈ separatorRuns (pairText first sep second))
      (hs : unescape sep = .ok bytes) :
      Parses (pairText first sep second) ordinal
        (.pair ⟨ordinal, String.ofList (pairText first sep second)⟩ left right bytes)

theorem parseKey_eq_ok {text : List Char} {ordinal : Nat} {node : FlatNode}
    (h : parseKey text ordinal = .ok node) : parseFlat? text ordinal = some (.ok node) := by
  unfold parseKey at h
  cases hk : parseFlat? text ordinal with
  | none => simp [hk] at h
  | some result => simpa [hk] using h

/-- Runs of separator text are not empty. -/
theorem ne_nil_of_mem_runsFrom {offset : Nat} {text : List Char} {run : Nat × List Char}
    (h : run ∈ runsFrom offset text) : run.2 ≠ [] := by
  fun_induction runsFrom offset text <;> grind

theorem sep_of_candidate? {text : List Char} {start : Nat} {sep : List Char} {c : Candidate text}
    (h : candidate? text start sep = some c) : c.sep = sep := by
  unfold candidate? at h
  grind

/-- A split that is found is one of the runs, with both sides read. -/
theorem search_eq_some {α β : Type} {text : List Char} {readFirst : Candidate text → Option α}
    {readSecond : Candidate text → α → Option β} {runs : List (Nat × List Char)}
    {split : Split text α β} (h : (search text readFirst readSecond runs).2 = some split) :
    readFirst split.candidate = some split.first ∧
      readSecond split.candidate split.first = some split.second ∧
        ∃ run ∈ runs, split.candidate.sep = run.2 := by
  induction runs with
  | nil => cases h
  | cons run runs ih =>
    have htail (h : (search text readFirst readSecond runs).2 = some split) :
        readFirst split.candidate = some split.first ∧
          readSecond split.candidate split.first = some split.second ∧
            ∃ run' ∈ run :: runs, split.candidate.sep = run'.2 := by
      obtain ⟨hf, hs, run', hm, hsep⟩ := ih h
      exact ⟨hf, hs, run', List.mem_cons_of_mem _ hm, hsep⟩
    obtain ⟨start, sep⟩ := run
    unfold search at h
    cases hc : candidate? text start sep with
    | none => exact htail (by simpa [hc] using h)
    | some c =>
      cases hf : readFirst c with
      | none => exact htail (by simpa [hc, hf] using h)
      | some first =>
        cases hs : readSecond c first with
        | none => exact htail (by simpa [hc, hf, hs] using h)
        | some second =>
          obtain rfl : ⟨c, first, second⟩ = split := by simpa [hc, hf, hs] using h
          exact ⟨hf, hs, _, List.mem_cons_self, sep_of_candidate? hc⟩

/-- The last step of reading a schema: the form of its text, with its parts read. -/
inductive ParsedBy : List Char → Nat → Schema → Prop
  | flat {text : List Char} {ordinal : Nat} {node : FlatNode}
      (hn : parseFlat? text ordinal = some (.ok node)) : ParsedBy text ordinal (.flat node)
  | sequence {text : List Char} {ordinal : Nat} {parts : VectorText} {element : Schema}
      {sep : Bytes} (hv : VectorText.read? text = some parts)
      (he : parseAt parts.element (ordinal + 1) = .ok element)
      (hs : unescape parts.sep = .ok sep) :
      ParsedBy text ordinal (.sequence ⟨ordinal, String.ofList text⟩ element sep parts.args)
  | set {text : List Char} {ordinal : Nat} {parts : SetText} {key : FlatNode} {sep : Bytes}
      (ht : SetText.read? text = some parts)
      (hk : parseFlat? parts.key (ordinal + 1) = some (.ok key))
      (hs : unescape parts.sep = .ok sep) :
      ParsedBy text ordinal
        (.set ⟨ordinal, String.ofList text⟩ ⟨key, sep, parts.ordered, parts.args⟩)
  | map {text : List Char} {ordinal : Nat} {parts : MapText} {key : FlatNode} {value : Schema}
      {keySep sep : Bytes} (hm : MapText.read? text = some parts)
      (hk : parseFlat? parts.key (ordinal + 1) = some (.ok key))
      (hv : parseAt parts.value (ordinal + 2) = .ok value)
      (hks : unescape parts.keySep = .ok keySep) (hs : unescape parts.sep = .ok sep) :
      ParsedBy text ordinal
        (.map ⟨ordinal, String.ofList text⟩ ⟨key, keySep, parts.ordered, parts.args⟩ value sep)
  | pair {first sep second : List Char} {ordinal start : Nat} {left right : Schema}
      {bytes : Bytes} (hf : parseAt first (ordinal + 1) = .ok left)
      (hr : parseAt second (ordinal + 1 + left.size) = .ok right)
      (hrun : (start, sep) ∈ separatorRuns (pairText first sep second))
      (hs : unescape sep = .ok bytes) :
      ParsedBy (pairText first sep second) ordinal
        (.pair ⟨ordinal, String.ofList (pairText first sep second)⟩ left right bytes)

/-- A schema is read by one of the forms, and so are its parts. -/
theorem parsedBy_of_parseAt {text : List Char} {ordinal : Nat} {s : Schema}
    (h : parseAt text ordinal = .ok s) : ParsedBy text ordinal s := by
  cases hf : parseFlat? text ordinal with
  | some outcome =>
    rw [parseAt_of_flat hf, map_eq_ok] at h
    obtain ⟨node, rfl, rfl⟩ := h
    exact .flat hf
  | none =>
  cases hv : VectorText.read? text with
  | some parts =>
    rw [parseAt_of_vector hf hv] at h
    simp only [bind_eq_ok, pure_eq_ok, Except.ok.injEq] at h
    obtain ⟨element, he, sep, hs, rfl⟩ := h
    exact .sequence hv he hs
  | none =>
  cases ht : SetText.read? text with
  | some parts =>
    rw [parseAt_of_set hf hv ht] at h
    simp only [bind_eq_ok, pure_eq_ok, Except.ok.injEq] at h
    obtain ⟨key, hk, sep, hs, rfl⟩ := h
    exact .set ht (parseKey_eq_ok hk) hs
  | none =>
  cases hm : MapText.read? text with
  | some parts =>
    rw [parseAt_of_map hf hv ht hm] at h
    simp only [bind_eq_ok, pure_eq_ok, Except.ok.injEq] at h
    obtain ⟨key, hk, value, hvalue, keySep, hks, sep, hs, rfl⟩ := h
    exact .map hm (parseKey_eq_ok hk) hvalue hks hs
  | none =>
    rw [parseAt_of_sides hf hv ht hm] at h
    unfold pairOf at h
    split at h
    · rename_i c first second hsearch
      obtain ⟨hfirst, hsecond, run, hrun, hsep⟩ := search_eq_some hsearch
      split at h
      · rename_i htext
        have hmem : (run.1, c.sep) ∈ separatorRuns text := by grind [pairRuns]
        obtain ⟨bytes, hbytes, rfl⟩ := map_eq_ok.1 h
        have hleft := side?_eq_some hfirst
        have hright := side?_eq_some hsecond
        generalize c.first = first, c.second = second, c.sep = sep at *
        subst htext
        exact .pair hleft hright hmem hbytes
      · cases h
    · cases h

/-- A schema is read by the forms all the way down. -/
theorem parses_of_parseAt {text : List Char} {ordinal : Nat} {s : Schema}
    (h : parseAt text ordinal = .ok s) : Parses text ordinal s := by
  induction s generalizing text ordinal with
  | flat node =>
    cases parsedBy_of_parseAt h with
    | flat hn => exact .flat hn
  | sequence label element sep args ih =>
    cases parsedBy_of_parseAt h with
    | sequence hv he hs => exact .sequence hv (ih he) hs
  | set label keys =>
    cases parsedBy_of_parseAt h with
    | set ht hk hs => exact .set ht hk hs
  | map label keys value sep ih =>
    cases parsedBy_of_parseAt h with
    | map hm hk hv hks hs => exact .map hm hk (ih hv) hks hs
  | pair label first second sep ih₁ ih₂ =>
    cases parsedBy_of_parseAt h with
    | pair hf hr hrun hs => exact .pair (ih₁ hf) (ih₂ hr) hrun hs

/-! ## Parts of containers -/

theorem VectorText.exists_of_read? {text : List Char} {parts : VectorText}
    (h : VectorText.read? text = some parts) :
    ∃ tail rest, text = 'V' :: tail ∧ splitArgs? tail = some (parts.args, rest) ∧
      splitBody? (·.1) (·.2.closed) (annotate BodyPlaces.before .atEnd rest).2 =
        some (parts.element, parts.sep) := by
  unfold VectorText.read? at h
  split at h
  · simp only [Option.bind_eq_bind, Option.bind_eq_some_iff, Prod.exists, Option.pure_def,
      Option.some.injEq] at h
    obtain ⟨args, rest, ha, element, sep, hb, rfl⟩ := h
    exact ⟨_, rest, rfl, ha, hb⟩
  · cases h

theorem SetText.exists_of_read? {text : List Char} {parts : SetText}
    (h : SetText.read? text = some parts) :
    ∃ c tail rest, text = c :: tail ∧ isOrdered? c = some parts.ordered ∧
      splitArgs? tail = some (parts.args, rest) ∧
      (annotate KeyPlaces.before .atSetEnd rest).1.key.lead.between = true ∧
      ∃ behind, splitKey (annotate KeyPlaces.before .atSetEnd rest).2 =
        (parts.key, parts.sep, behind) := by
  cases text with
  | nil => cases h
  | cons c text =>
    simp only [SetText.read?, Option.bind_eq_bind, Option.bind_eq_some_iff, Prod.exists,
      Option.ite_none_right_eq_some] at h
    obtain ⟨ordered, hc, args, rest, ha, hlead, h⟩ := h
    obtain rfl := Option.some.inj h
    exact ⟨c, text, rest, rfl, hc, ha, hlead, _, rfl⟩

theorem MapText.exists_of_read? {text : List Char} {parts : MapText}
    (h : MapText.read? text = some parts) :
    ∃ c tail rest, text = c :: tail ∧ isOrdered? c = some parts.ordered ∧
      splitArgs? tail = some (parts.args, rest) ∧
      (annotate KeyPlaces.before .atMapEnd rest).1.key.lead.between = true ∧
      ∃ behind, splitKey (annotate KeyPlaces.before .atMapEnd rest).2 =
          (parts.key, parts.keySep, behind) ∧
        splitBody? (·.1) (·.2.value.closed) (behind.drop 1) = some (parts.value, parts.sep) := by
  cases text with
  | nil => cases h
  | cons c text =>
    simp only [MapText.read?, Option.bind_eq_bind, Option.bind_eq_some_iff, Prod.exists,
      Option.ite_none_right_eq_some] at h
    obtain ⟨ordered, hc, args, rest, ha, hlead, value, sep, hb, h⟩ := h
    obtain rfl := Option.some.inj h
    exact ⟨c, text, rest, rfl, hc, ha, hlead, _, rfl, hb⟩

/-! ## Places of the nodes -/

theorem label_of_parseFlat? {text : List Char} {ordinal : Nat} {node : FlatNode}
    (h : parseFlat? text ordinal = some (.ok node)) :
    node.label = ⟨ordinal, String.ofList text⟩ := by
  simp only [parseFlat?, Option.map_eq_some_iff] at h
  obtain ⟨parts, -, h⟩ := h
  cases hl : parts.layout <;> grind [Except.map]

theorem length_pos_of_parseFlat? {text : List Char} {ordinal : Nat} {node : FlatNode}
    (h : parseFlat? text ordinal = some (.ok node)) : 0 < text.length := by
  cases text with
  | nil => cases h
  | cons c text => simp

theorem length_pos_of_splitArgs? {text rest : List Char} {args : List String}
    (h : splitArgs? text = some (args, rest)) : 0 < text.length :=
  Nat.lt_of_le_of_lt (Nat.zero_le _) (length_splitArgs?_lt h)

theorem SetText.two_le_length {text : List Char} {parts : SetText}
    (h : SetText.read? text = some parts) : 2 ≤ text.length := by
  obtain ⟨c, tail, rest, rfl, -, ha, -⟩ := SetText.exists_of_read? h
  have := length_pos_of_splitArgs? ha
  rw [List.length_cons]
  omega

namespace Parses

variable {text : List Char} {ordinal : Nat} {s : Schema}

theorem numberedFrom (h : Parses text ordinal s) : s.NumberedFrom ordinal := by
  induction h with
  | flat hn => exact congrArg Label.ordinal (label_of_parseFlat? hn)
  | sequence hv he hs ih => exact ⟨rfl, ih⟩
  | set ht hk hs => exact ⟨rfl, congrArg Label.ordinal (label_of_parseFlat? hk)⟩
  | map hm hk hv hks hs ih => exact ⟨rfl, congrArg Label.ordinal (label_of_parseFlat? hk), ih⟩
  | pair hf hr hrun hs ih₁ ih₂ => exact ⟨rfl, ih₁, ih₂⟩

theorem source (h : Parses text ordinal s) : s.source = String.ofList text := by
  cases h with
  | flat hn => exact congrArg Label.source (label_of_parseFlat? hn)
  | _ => rfl

theorem size_le (h : Parses text ordinal s) : s.size ≤ text.length := by
  induction h with
  | flat hn => exact length_pos_of_parseFlat? hn
  | sequence hv he hs ih =>
    have := VectorText.length_element_lt hv
    rw [Schema.size]
    omega
  | set ht hk hs => exact SetText.two_le_length ht
  | map hm hk hv hks hs ih =>
    have := MapText.length_value_lt hm
    rw [Schema.size]
    omega
  | pair hf hr hrun hs ih₁ ih₂ =>
    rw [Schema.size, pairText]
    simp only [List.length_append, List.length_cons]
    omega

end Parses

/-! ## Fields of flat nodes

The separator text before the first code ends at a code. -/

/-- A code in front is a unit of the body. -/
theorem readUnits_body {c : Char} {spot : SequencePlaces} (hc : isCode c = true)
    (back : List (Char × SequencePlaces)) :
    ∃ units, (readUnits (·.1) (fun c => isWeak c || isCode c) (·.2.body.between)
      ((c, spot) :: back)).1 = c :: units := by
  have hslash : isCode '\\' = false := by decide
  have hlength : unitLength (·.1) (fun c => isWeak c || isCode c) (·.2.body.between)
      ((c, spot) :: back) = 1 := by
    rcases back with _ | ⟨b, _ | ⟨c', _ | ⟨d, back⟩⟩⟩ <;> grind [unitLength]
  unfold readUnits
  simp [hlength]

/-- A type sequence has a field. -/
theorem codes_ne_nil {text : List Char} {parts : TypeSequence}
    (h : TypeSequence.read? text = some parts) : TypeSequence.codes parts.body ≠ [] := by
  simp only [TypeSequence.read?] at h
  split at h
  · rename_i hlead
    obtain ⟨rest, hrest, ⟨-, hend⟩ | ⟨c, tail, rfl, hleaves⟩⟩ :=
      readUnits_annotate readsUnits_lead hlead
    · cases hend
    have hc : isCode c = true := by grind
    obtain ⟨units, hbody⟩ := @readUnits_body c (annotate SequencePlaces.before .atEnd tail).1 hc
      (annotate SequencePlaces.before .atEnd tail).2
    have hcons : (annotate SequencePlaces.before .atEnd (c :: tail)).2 =
        (c, (annotate SequencePlaces.before .atEnd tail).1) ::
          (annotate SequencePlaces.before .atEnd tail).2 := rfl
    obtain ⟨prim, hp⟩ := Option.isSome_iff_exists.1 hc
    rw [hrest, hcons] at h
    obtain rfl := Option.some.inj h
    simp [hbody, TypeSequence.codes, hp]
  · cases h

/-- The shape that a flat node is read as has a field for each code. -/
theorem exists_shape_of_parseFlat? {text : List Char} {ordinal : Nat} {node : FlatNode}
    (h : parseFlat? text ordinal = some (.ok node)) :
    ∃ parts shape, TypeSequence.read? text = some parts ∧
      shape.fields.length = (TypeSequence.codes parts.body).length ∧
        node.layout = if parts.starred then .structs shape else TypeSequence.collapse shape := by
  simp only [parseFlat?, Option.map_eq_some_iff, map_eq_ok] at h
  obtain ⟨parts, hparts, layout, hl, rfl⟩ := h
  simp only [TypeSequence.layout, TypeSequence.shape, bind_eq_ok, pure_eq_ok,
    Except.ok.injEq] at hl
  obtain ⟨shape, ⟨fields, hfields, leading, -, rfl⟩, rfl⟩ := hl
  exact ⟨parts, _, hparts, (mapM_eq_ok_iff.1 hfields).length_eq.symm, rfl⟩

theorem isHollow_of_parseFlat? {text : List Char} {ordinal : Nat} {node : FlatNode}
    (h : parseFlat? text ordinal = some (.ok node)) : node.layout.isHollow = false := by
  obtain ⟨parts, shape, hparts, hlength, hl⟩ := exists_shape_of_parseFlat? h
  have hne : shape.fields ≠ [] := by
    rw [← List.length_pos_iff, hlength]
    exact List.length_pos_iff.2 (codes_ne_nil hparts)
  rw [hl]
  unfold TypeSequence.collapse
  grind [Layout.isHollow, Shape.isHollow]

theorem length_codes_le (text : List Char) :
    (TypeSequence.codes text).length ≤ text.length := by
  fun_induction TypeSequence.codes text <;> grind [length_readGreedy_le]

theorem length_body_le {text : List Char} {parts : TypeSequence}
    (h : TypeSequence.read? text = some parts) : parts.body.length ≤ text.length := by
  simp only [TypeSequence.read?] at h
  split at h
  · obtain rfl := Option.some.inj h
    have hread := append_readUnits (·.1) (fun c => isWeak c || isCode c) (·.2.body.between)
      (readUnits (·.1) isWeak (·.2.lead.between)
        (annotate SequencePlaces.before .atEnd text).2).2
    have hbody := congrArg List.length hread
    have hlead := length_readUnits_le (·.1) isWeak (·.2.lead.between)
      (annotate SequencePlaces.before .atEnd text).2
    rw [length_annotate] at hlead
    simp only [List.length_append, List.length_map] at hbody
    dsimp only
    omega
  · cases h

theorem width_le (shape : Shape) : shape.width ≤ 8 * shape.fields.length := by
  unfold Shape.width
  induction shape.fields with
  | nil => simp
  | cons field fields ih =>
    have : field.prim.width ≤ 8 := by cases field.prim <;> decide
    rw [List.foldr_cons, List.length_cons]
    omega

/-- A flat node takes at most eight bytes for each character. -/
theorem width_le_of_parseFlat? {text : List Char} {ordinal : Nat} {node : FlatNode}
    (h : parseFlat? text ordinal = some (.ok node)) : node.layout.width ≤ 8 * text.length := by
  obtain ⟨parts, shape, hparts, hlength, hl⟩ := exists_shape_of_parseFlat? h
  have hcodes := length_codes_le parts.body
  have hbody := length_body_le hparts
  have hwidth := width_le shape
  have hlayout : node.layout.width = shape.width := by
    rw [hl]
    unfold TypeSequence.collapse
    grind [Layout.width, Shape.width]
  omega

/-- The widths fit where eight times the length of the format does. -/
theorem Parses.widthsFit {text : List Char} {ordinal : Nat} {s : Schema}
    (h : Parses text ordinal s) (hl : 8 * text.length < 2 ^ 32) : s.WidthsFit := by
  induction h with
  | flat hn =>
    exact Nat.lt_of_le_of_lt (width_le_of_parseFlat? hn) hl
  | sequence hv he hs ih =>
    have := VectorText.length_element_lt hv
    exact ih (by omega)
  | set => trivial
  | map hm hk hv hks hs ih =>
    have := MapText.length_value_lt hm
    exact ih (by omega)
  | pair hf hr hrun hs ih₁ ih₂ =>
    simp only [pairText, List.length_append, List.length_cons] at hl
    exact ⟨ih₁ (by omega), ih₂ (by omega)⟩

/-! ## Separators -/

theorem letterBytes_ne_nil (c : Char) : Escape.letterBytes c ≠ [] := by
  unfold Escape.letterBytes
  split <;> simp

/-- Escaped text that is not empty stands for bytes. -/
theorem unescape_ne_nil {text : List Char} {bytes : Bytes} (h : unescape text = .ok bytes)
    (hne : text ≠ []) : bytes ≠ [] := by
  rw [unescape, mapError_eq_ok] at h
  unfold Escape.read at h
  split at h
  · exact absurd rfl hne
  · split at h
    · obtain ⟨rest, -, rfl⟩ := map_eq_ok.1 h
      simp
    · cases h
  · obtain ⟨rest, -, rfl⟩ := map_eq_ok.1 h
    simp [letterBytes_ne_nil]
  · obtain ⟨rest, -, rfl⟩ := map_eq_ok.1 h
    simp

/-- Every character is marked with what holds of the text behind it. -/
theorem spot_of_suffix_annotate {α : Type} {before : Char → α → α} {atEnd : α} {text : List Char}
    {c : Char} {spot : α} {back : List (Char × α)}
    (h : (c, spot) :: back <:+ (annotate before atEnd text).2) :
    ∃ rest, back = (annotate before atEnd rest).2 ∧ spot = (annotate before atEnd rest).1 := by
  obtain ⟨n, hn⟩ : ∃ n, (c, spot) :: back = (annotate before atEnd text).2.drop n :=
    ⟨_, (List.suffix_iff_eq_drop.1 h)⟩
  rw [drop_annotate] at hn
  cases hd : text.drop n with
  | nil => simp [hd, annotate] at hn
  | cons c' rest =>
    rw [hd] at hn
    obtain ⟨hhead, hback⟩ := List.cons.inj hn
    exact ⟨rest, hback, (Prod.mk.inj hhead).2⟩

/-- A body ends at a closing parenthesis that is marked as closing. -/
theorem suffix_of_splitBody? {α : Type} {char : α → Char} {closing : α → Bool} {text : List α}
    {body sep : List Char} (h : splitBody? char closing text = some (body, sep)) :
    ∃ a back, a :: back <:+ text ∧ closing a = true ∧ sep = back.map char := by
  fun_induction splitBody? char closing text generalizing body sep <;>
    grind [List.suffix_cons_iff]

/-- A body that is cut off ends at a parenthesis that is marked for the text behind it. -/
theorem closing_of_splitBody? {α : Type} {before : Char → α → α} {atEnd : α} (closing : α → Bool)
    {text : List Char} {spots : List (Char × α)} (hs : spots <:+ (annotate before atEnd text).2)
    {body sep : List Char}
    (h : splitBody? (·.1) (fun spot => closing spot.2) spots = some (body, sep)) :
    closing (annotate before atEnd sep).1 = true := by
  obtain ⟨⟨c, spot⟩, back, hsuffix, hclosing, rfl⟩ := suffix_of_splitBody? h
  obtain ⟨rest, rfl, rfl⟩ := spot_of_suffix_annotate (hsuffix.trans hs)
  rwa [map_fst_annotate]

theorem VectorText.sep_ne_nil {text : List Char} {parts : VectorText}
    (h : VectorText.read? text = some parts) : parts.sep ≠ [] := by
  obtain ⟨tail, rest, rfl, -, hb⟩ := VectorText.exists_of_read? h
  have hclosing := closing_of_splitBody? BodyPlaces.closed List.suffix_rfl hb
  intro hnil
  rw [hnil] at hclosing
  cases hclosing

theorem suffix_readUnits {α : Type} (char : α → Char) (plain : Char → Bool) (viable : α → Bool)
    (text : List α) : (readUnits char plain viable text).2 <:+ text := by
  fun_induction readUnits char plain viable text <;>
    grind [List.IsSuffix.trans, List.drop_suffix]

theorem suffix_splitKey (spots : List (Char × KeyPlaces)) : (splitKey spots).2.2 <:+ spots :=
  (suffix_readUnits ..).trans <| (List.drop_suffix ..).trans <|
    (suffix_readUnits ..).trans (suffix_readUnits ..)

theorem SetText.sep_ne_nil {text : List Char} {parts : SetText}
    (h : SetText.read? text = some parts) : parts.sep ≠ [] := by
  obtain ⟨c, tail, rest, rfl, -, -, hlead, behind, hsplit⟩ := SetText.exists_of_read? h
  have := splitKey_sep_ne_nil rfl rfl rfl hlead
  rwa [hsplit] at this

theorem MapText.keySep_ne_nil {text : List Char} {parts : MapText}
    (h : MapText.read? text = some parts) : parts.keySep ≠ [] := by
  obtain ⟨c, tail, rest, rfl, -, -, hlead, behind, hsplit, -⟩ := MapText.exists_of_read? h
  have := splitKey_sep_ne_nil rfl rfl rfl hlead
  rwa [hsplit] at this

theorem MapText.sep_ne_nil {text : List Char} {parts : MapText}
    (h : MapText.read? text = some parts) : parts.sep ≠ [] := by
  obtain ⟨c, tail, rest, rfl, -, -, -, behind, hsplit, hb⟩ := MapText.exists_of_read? h
  have hsuffix := suffix_splitKey (annotate KeyPlaces.before .atMapEnd rest).2
  rw [hsplit] at hsuffix
  have hclosing := closing_of_splitBody? (fun places : KeyPlaces => places.value.closed)
    ((List.drop_suffix ..).trans hsuffix) hb
  intro hnil
  rw [hnil] at hclosing
  cases hclosing

theorem Parses.separated {text : List Char} {ordinal : Nat} {s : Schema}
    (h : Parses text ordinal s) : s.Separated := by
  induction h with
  | flat hn => exact isHollow_of_parseFlat? hn
  | sequence hv he hs ih => exact ⟨unescape_ne_nil hs (VectorText.sep_ne_nil hv), ih⟩
  | set ht hk hs => exact ⟨unescape_ne_nil hs (SetText.sep_ne_nil ht), isHollow_of_parseFlat? hk⟩
  | map hm hk hv hks hs ih =>
    exact ⟨unescape_ne_nil hks (MapText.keySep_ne_nil hm), isHollow_of_parseFlat? hk,
      unescape_ne_nil hs (MapText.sep_ne_nil hm), ih⟩
  | pair hf hr hrun hs ih₁ ih₂ => exact ⟨unescape_ne_nil hs (ne_nil_of_mem_runsFrom hrun), ih₁, ih₂⟩

end Format

/-! ## Parsed schemas -/

/-- A format is accepted if it can be read and its separators do not collide. -/
theorem parse_eq_ok {format : String} {s : Schema} :
    parse format = .ok s ↔ Format.parseAt format.toList 0 = .ok s ∧ s.collision? = none := by
  rw [parse, bind_eq_ok]
  constructor
  · rintro ⟨s', hs, h⟩
    split at h
    · cases h
    · obtain rfl := Except.ok.inj h
      exact ⟨hs, by assumption⟩
  · rintro ⟨hs, hc⟩
    exact ⟨s, hs, by rw [hc]; rfl⟩

theorem parses_of_parse {format : String} {s : Schema} (h : parse format = .ok s) :
    Format.Parses format.toList 0 s :=
  Format.parses_of_parseAt (parse_eq_ok.1 h).1

/-- A schema keeps the format that it was read from. -/
theorem parse_source {format : String} {s : Schema} (h : parse format = .ok s) :
    s.source = format := by
  rw [(parses_of_parse h).source, String.ofList_toList]

theorem numberedFrom_of_parse {format : String} {s : Schema} (h : parse format = .ok s) :
    s.NumberedFrom 0 :=
  (parses_of_parse h).numberedFrom

theorem separated_of_parse {format : String} {s : Schema} (h : parse format = .ok s) :
    s.Separated :=
  (parses_of_parse h).separated

/-- The separators of a parsed schema do not collide. -/
theorem collision?_of_parse {format : String} {s : Schema} (h : parse format = .ok s) :
    s.collision? = none :=
  (parse_eq_ok.1 h).2

theorem length_toList_le (text : String) : text.toList.length ≤ (Bytes.ofText text).length := by
  rw [Bytes.ofText, Bytes.ofChars]
  induction text.toList with
  | nil => simp
  | cons c chars ih =>
    have := c.utf8Size_pos
    rw [List.flatMap_cons, List.length_append, String.length_utf8EncodeChar, List.length_cons]
    omega

/-- A schema has no more nodes than its format has bytes. -/
theorem size_le_of_parse {format : String} {s : Schema} (h : parse format = .ok s) :
    s.size ≤ (Bytes.ofText format).length :=
  Nat.le_trans (parses_of_parse h).size_le (length_toList_le format)

/-- The widths of formats below half a gibibyte fit. -/
theorem widthsFit_of_parse {format : String} {s : Schema} (h : parse format = .ok s)
    (hf : (Bytes.ofText format).length < 2 ^ 29) : s.WidthsFit := by
  have := length_toList_le format
  exact (parses_of_parse h).widthsFit (by omega)

end RecordStore
