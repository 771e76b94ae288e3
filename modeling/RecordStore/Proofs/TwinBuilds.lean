import RecordStore.Proofs.Lookups
import RecordStore.Proofs.TwinRows

/-!
# Storage order does not matter

Whether keys are stored in order or in buckets changes neither whether a build succeeds nor what is
read from its file, up to the order of entries, nor which keys are found.

## Main statements

* `Value.Similar.exists_key_iff` — similar keyed values have the same keys.
* `Archive.isSome_lookupIn` — a lookup hits exactly if an entry has the key.
* `twin_builds_agree` — builds of twins, and the archives of their files.
-/

namespace RecordStore

/-! ## Keys of similar values -/

theorem EntrySimilar.key_eq {entry entry' : Value × Option Value} (h : EntrySimilar entry entry') :
    entry.1 = entry'.1 := by
  cases h <;> rfl

theorem keys_eq_of_forall₂ {entries entries' : List (Value × Option Value)}
    (h : List.Forall₂ EntrySimilar entries entries') :
    entries.map (·.1) = entries'.map (·.1) := by
  induction h with
  | nil => rfl
  | cons hentry _ ih => rw [List.map_cons, List.map_cons, hentry.key_eq, ih]

theorem Value.Similar.exists_key_iff {entries entries' : List (Value × Option Value)}
    (h : Value.Similar (.keyed entries) (.keyed entries')) (P : Value → Prop) :
    (∃ entry ∈ entries, P entry.1) ↔ ∃ entry ∈ entries', P entry.1 := by
  have hmap (entries : List (Value × Option Value)) :
      (∃ entry ∈ entries, P entry.1) ↔ ∃ key ∈ entries.map (·.1), P key := by
    simp
  cases h with
  | keyed hentries hperm =>
    rw [hmap, hmap, keys_eq_of_forall₂ hentries]
    exact exists_congr fun key => and_congr_left' (hperm.map _).mem_iff

/-! ## Lookups -/

theorem Schema.Twins.keys? {s s' : Schema} (h : s.Twins s') {keys : KeySpec}
    (hk : s.keys? = some keys) : ∃ keys', s'.keys? = some keys' ∧ keys.Twins keys' := by
  cases h with
  | flat | sequence | pair => cases hk
  | set _ hkeys | map _ hkeys _ =>
    obtain rfl := Option.some.inj hk
    exact ⟨_, rfl, hkeys⟩

namespace Archive

variable {s : Schema} {rows : List Value} {keys : KeySpec} {i : Nat}

theorem lookupIn_of_le (hk : s.keys? = some keys) (hi : rows.length ≤ i) (keyText : Bytes) :
    lookupIn ⟨s, s.container rows⟩ i keyText = .error (.instanceOutOfRange i rows.length) := by
  have hcheck : checkInstance ⟨s, s.container rows⟩ i =
      .error (.instanceOutOfRange i rows.length) := by
    rw [checkInstance, instances, Schema.instances_container, if_neg (by omega)]
  cases s with
  | flat | sequence | pair => cases hk
  | set | map =>
    simp only [lookupIn, Schema.container] at hcheck ⊢
    rw [hcheck]
    rfl

theorem lookupIn_of_decodeKey_error (hk : s.keys? = some keys) (hi : i < rows.length)
    {keyText : Bytes} {cause : DecodeError} (hd : keys.decodeKey keyText = .error cause) :
    lookupIn ⟨s, s.container rows⟩ i keyText = .error (.decode cause) := by
  have hcheck := @checkInstance_container s _ _ hi
  cases s with
  | flat | sequence | pair => cases hk
  | set | map =>
    obtain rfl := Option.some.inj hk
    simp only [lookupIn, Schema.container] at hcheck ⊢
    rw [hcheck, ok_bind, hd]
    rfl

/-- A lookup hits exactly if an entry has the key. -/
theorem isSome_lookupIn (hs : s.Storable) (hr : ∀ row ∈ rows, s.Holds row)
    (hl : (s.sections rows).length < wordLimit) (hk : s.keys? = some keys) (hi : i < rows.length)
    {entries : List (Value × Option Value)} (he : rows[i] = .keyed entries) {keyText bytes : Bytes}
    {key : FlatValue} (hkey : keys.decodeKey keyText = .ok (bytes, key)) :
    ∃ hit, (lookupIn ⟨s, s.container rows⟩ i keyText).map Option.isSome = .ok hit ∧
      (hit = true ↔ ∃ entry ∈ entries, keys.HasBytes bytes entry) := by
  rcases lookupIn_container hs hr hl hk hi he hkey with
    ⟨hnone, hfound⟩ | ⟨entry, text, ⟨front, back, rfl, hhas, -⟩, -, hfound⟩
  · refine ⟨false, by rw [hfound]; rfl, by simp, ?_⟩
    rintro ⟨entry, hm, hhas⟩
    exact absurd hhas (hnone entry hm)
  · exact ⟨true, by rw [hfound]; rfl, fun _ => ⟨entry, by simp, hhas⟩, fun _ => rfl⟩

/-- Lookups in archives of twins with similar rows hit or miss alike. -/
theorem isSome_lookupIn_of_twins {s' : Schema} {rows' : List Value} {keys : KeySpec}
    (ht : s.Twins s') (hs : s.Storable) (hs' : s'.Storable) (hr : ∀ row ∈ rows, s.Holds row)
    (hr' : ∀ row ∈ rows', s'.Holds row) (hl : (s.sections rows).length < wordLimit)
    (hl' : (s'.sections rows').length < wordLimit)
    (hsimilar : List.Forall₂ Value.Similar rows rows') (hk : s.keys? = some keys) (i : Nat)
    (keyText : Bytes) :
    (lookupIn ⟨s, s.container rows⟩ i keyText).map Option.isSome =
      (lookupIn ⟨s', s'.container rows'⟩ i keyText).map Option.isSome := by
  obtain ⟨keys', hk', hkeys⟩ := ht.keys? hk
  have hlength := hsimilar.length_eq
  rcases Nat.lt_or_ge i rows.length with hi | hi
  · cases hd : keys.decodeKey keyText with
    | error cause =>
      have hd' := hd
      rw [hkeys.decodeKey_eq] at hd'
      rw [lookupIn_of_decodeKey_error hk hi hd,
        lookupIn_of_decodeKey_error hk' (hlength ▸ hi) hd']
    | ok decoded =>
      obtain ⟨bytes, key⟩ := decoded
      have hd' := hd
      rw [hkeys.decodeKey_eq] at hd'
      obtain ⟨entries, he⟩ := Schema.exists_entries hk (hr _ (List.getElem_mem hi))
      obtain ⟨entries', he'⟩ :=
        Schema.exists_entries hk' (hr' _ (List.getElem_mem (hlength ▸ hi)))
      have hrow := hsimilar.get hi (hlength ▸ hi)
      simp only [List.get_eq_getElem, he, he'] at hrow
      obtain ⟨hit, hfound, hiff⟩ := isSome_lookupIn hs hr hl hk hi he hd
      obtain ⟨hit', hfound', hiff'⟩ := isSome_lookupIn hs' hr' hl' hk' (hlength ▸ hi) he' hd'
      have hbytes : keys.HasBytes bytes = keys'.HasBytes bytes := by
        funext entry
        rw [KeySpec.HasBytes, KeySpec.HasBytes, hkeys.node.keyBytes_eq]
      have hhit : hit = hit' := by
        rw [Bool.eq_iff_iff, hiff, hiff', hbytes]
        exact hrow.exists_key_iff fun value =>
          (Schema.flat keys'.node).keyBytes value = .ok bytes
      rw [hfound, hfound', hhit]
  · rw [lookupIn_of_le hk hi, lookupIn_of_le hk' (hlength ▸ hi), hlength]

end Archive

/-! ## Builds of twins -/

/-- The archives of twins with similar rows are read and looked up alike. -/
theorem Archive.agree_of_twins {s s' : Schema} (ht : s.Twins s') (hs : s.Addressed)
    (hs' : s'.Addressed) (hf : (Bytes.ofText s.source).length < 2 ^ 32)
    (hf' : (Bytes.ofText s'.source).length < 2 ^ 32) {rows rows' : List Value}
    (hr : ∀ row ∈ rows, s.Holds row) (hr' : ∀ row ∈ rows', s'.Holds row)
    (hsimilar : List.Forall₂ Value.Similar rows rows') (hl : (s.file rows).length < wordLimit)
    (hl' : (s'.file rows').length < wordLimit) {archive archive' : Archive}
    (ho : Archive.open s (s.file rows) = .ok archive)
    (ho' : Archive.open s' (s'.file rows') = .ok archive') :
    archive.instances = rows.length ∧ archive'.instances = rows'.length ∧
      (∀ i < rows.length, ∃ value value', archive.read i = .ok value ∧
        archive'.read i = .ok value' ∧ value.Similar value') ∧
      ∀ keys, s.keys? = some keys → ∀ i keyText,
        (archive.lookupIn i keyText).map Option.isSome =
          (archive'.lookupIn i keyText).map Option.isSome := by
  obtain ⟨hstorable, rfl⟩ := eq_of_open_file hs hf hr hl ho
  obtain ⟨hstorable', rfl⟩ := eq_of_open_file hs' hf' hr' hl' ho'
  refine ⟨Schema.instances_container s rows, Schema.instances_container s' rows',
    fun i hi => ?_, fun keys hk i keyText => ?_⟩
  · have hi' : i < rows'.length := hsimilar.length_eq ▸ hi
    exact ⟨rows[i], rows'[i], read_file hstorable hr hl hi, read_file hstorable' hr' hl' hi',
      hsimilar.get hi hi'⟩
  · rw [Schema.file, List.length_append] at hl hl'
    exact isSome_lookupIn_of_twins ht hstorable hstorable' hr hr' (by omega) (by omega) hsimilar
      hk i keyText

/-- Builds of twins in memory succeed or fail together. They fail at the same node with the same
numbers. If they succeed, they have as many instances and skip as many parts, and what is read from
the files of both is equal up to the order of entries, and lookups in both hit and miss alike. -/
theorem twin_builds_agree {format format' : String} {schema schema' : Schema}
    (hp : parse format = .ok schema) (hp' : parse format' = .ok schema')
    (hf : (Bytes.ofText format).length < 2 ^ 32) (hf' : (Bytes.ofText format').length < 2 ^ 32)
    (ha : schema.ArgsFit) (ht : schema.Twins schema') (outer : Option Bytes) (input : Bytes) :
    (∃ ordinal expected actual output output',
      build .memory schema outer (.ok input) =
        (output, .error (.instanceMismatch ordinal expected actual)) ∧
      build .memory schema' outer (.ok input) =
        (output', .error (.instanceMismatch ordinal expected actual))) ∨
    ∃ count skipped output output',
      build .memory schema outer (.ok input) = (output, .ok ⟨count, skipped, output.length⟩) ∧
      build .memory schema' outer (.ok input) = (output', .ok ⟨count, skipped, output'.length⟩) ∧
      (output.length < wordLimit → output'.length < wordLimit →
        (schema.WidthsFit → ∃ archive archive', Archive.open schema output = .ok archive ∧
          Archive.open schema' output' = .ok archive') ∧
        ∀ archive archive', Archive.open schema output = .ok archive →
          Archive.open schema' output' = .ok archive' →
          archive.instances = count ∧ archive'.instances = count ∧
          (∀ i < count, ∃ value value', archive.read i = .ok value ∧
            archive'.read i = .ok value' ∧ value.Similar value') ∧
          ∀ keys, schema.keys? = some keys → ∀ i keyText,
            (archive.lookupIn i keyText).map Option.isSome =
              (archive'.lookupIn i keyText).map Option.isSome) := by
  have hs := separated_of_parse hp
  have hcounted := ht.counted_outcome hs (.inl rfl :
    Reordered outer (Records.splitOptional outer input) (Records.splitOptional outer input))
  rw [build_eq_written (by simp) (numberedFrom_of_parse hp),
    build_eq_written (by simp) (numberedFrom_of_parse hp')]
  cases h : schema.outcome outer (Records.splitOptional outer input) with
  | error halt =>
    rw [h] at hcounted
    cases h' : schema'.outcome outer (Records.splitOptional outer input) with
    | ok => rw [h'] at hcounted; cases hcounted
    | error halt' =>
      rw [h'] at hcounted
      have hcause : halt'.error = halt.error := (Except.error.inj hcounted).symm
      exact .inl ⟨halt.ordinal, halt.expected, halt.actual, _, _, rfl,
        congrArg (fun cause => (_, Except.error cause)) hcause⟩
  | ok result =>
    rw [h] at hcounted
    cases h' : schema'.outcome outer (Records.splitOptional outer input) with
    | error => rw [h'] at hcounted; cases hcounted
    | ok result' =>
      obtain ⟨rows, skipped⟩ := result
      obtain ⟨rows', skipped'⟩ := result'
      rw [h'] at hcounted
      simp only [counted, Except.ok.injEq, Prod.mk.injEq] at hcounted
      obtain ⟨hlength, rfl⟩ := hcounted
      have hrows : schema.rows? outer (Records.splitOptional outer input) =
          some (rows, skipped) := toOption_eq_some.2 h
      have hrows' : schema'.rows? outer (Records.splitOptional outer input) =
          some (rows', skipped) := toOption_eq_some.2 h'
      have hr := Schema.holds_of_rows? hrows
      have hr' := Schema.holds_of_rows? hrows'
      have hsource : (Bytes.ofText schema.source).length < 2 ^ 32 := by rwa [parse_source hp]
      have hsource' : (Bytes.ofText schema'.source).length < 2 ^ 32 := by rwa [parse_source hp']
      have haddressed := Schema.addressed_of_parse hp hf ha
      have haddressed' := Schema.addressed_of_parse hp' hf' (ht.argsFit ha)
      refine .inr ⟨rows.length, skipped, schema.file rows, schema'.file rows', rfl,
        by rw [hlength]; rfl, fun hl hl' => ⟨fun hw => ?_, fun archive archive' ho ho' => ?_⟩⟩
      · exact ⟨_, _, Archive.open_file (haddressed.storable hw) hsource hr hl,
          Archive.open_file (haddressed'.storable (ht.widthsFit hw)) hsource' hr' hl'⟩
      · obtain ⟨hi, hi', hreads, hlookups⟩ := Archive.agree_of_twins ht haddressed haddressed'
          hsource hsource' hr hr' (ht.similar_rows hs hrows hrows') hl hl' ho ho'
        exact ⟨hi, hi'.trans hlength.symm, hreads, hlookups⟩

def orderedSample : Schema :=
  .map ⟨0, "T(c)=(H(c),);"⟩ ⟨⟨⟨1, "c"⟩, .primitive .char⟩, [0x3d], true, []⟩
    (.set ⟨2, "H(c),"⟩ ⟨⟨⟨3, "c"⟩, .primitive .char⟩, [0x2c], false, []⟩) [0x3b]

def bucketSample : Schema :=
  .map ⟨0, "H(c)=(T(c),);"⟩ ⟨⟨⟨1, "c"⟩, .primitive .char⟩, [0x3d], false, []⟩
    (.set ⟨2, "T(c),"⟩ ⟨⟨⟨3, "c"⟩, .primitive .char⟩, [0x2c], true, []⟩) [0x3b]

theorem parse_twinSamples :
    parse "T(c)=(H(c),);" = .ok orderedSample ∧ parse "H(c)=(T(c),);" = .ok bucketSample :=
  ⟨by decide +kernel, by decide +kernel⟩

theorem argsFit_orderedSample : orderedSample.ArgsFit := by
  simp only [Schema.ArgsFit, orderedSample, Schema.nodes]
  decide

theorem twins_sample : orderedSample.Twins bucketSample :=
  .map rfl ⟨⟨rfl, rfl⟩, rfl, rfl⟩ (.set rfl ⟨⟨rfl, rfl⟩, rfl, rfl⟩)

theorem build_twinSamples :
    (build .memory orderedSample none (.ok (Bytes.ofText "b=y,x,;a=z,;"))).2 = .ok ⟨1, 0, 246⟩ ∧
      (build .memory bucketSample none (.ok (Bytes.ofText "b=y,x,;a=z,;"))).2 = .ok ⟨1, 0, 222⟩ :=
  ⟨by decide +kernel, by decide +kernel⟩

theorem twin_sample_agrees :
    ∃ archive archive' value value',
      Archive.open orderedSample (build .memory orderedSample none
        (.ok (Bytes.ofText "b=y,x,;a=z,;"))).1 = .ok archive ∧
      Archive.open bucketSample (build .memory bucketSample none
        (.ok (Bytes.ofText "b=y,x,;a=z,;"))).1 = .ok archive' ∧
      archive.read 0 = .ok value ∧ archive'.read 0 = .ok value' ∧ value.Similar value' ∧
      (archive.lookupIn 0 (Bytes.ofText "b")).map Option.isSome =
        (archive'.lookupIn 0 (Bytes.ofText "b")).map Option.isSome := by
  have hformat : (Bytes.ofText "T(c)=(H(c),);").length = 13 := by decide
  have hformat' : (Bytes.ofText "H(c)=(T(c),);").length = 13 := by decide
  rcases twin_builds_agree parse_twinSamples.1 parse_twinSamples.2 (by omega) (by omega)
    argsFit_orderedSample twins_sample none (Bytes.ofText "b=y,x,;a=z,;") with
    ⟨_, _, _, _, _, hb, -⟩ | ⟨count, skipped, output, output', hb, hb', hagree⟩
  · have hsummary := build_twinSamples.1
    rw [hb] at hsummary
    cases hsummary
  · have hsummary := build_twinSamples.1
    have hsummary' := build_twinSamples.2
    rw [hb] at hsummary ⊢
    rw [hb'] at hsummary' ⊢
    simp only [Except.ok.injEq, BuildSummary.mk.injEq] at hsummary hsummary'
    obtain ⟨hopens, hread⟩ := hagree (by rw [hsummary.2.2]; decide) (by rw [hsummary'.2.2]; decide)
    obtain ⟨archive, archive', ho, ho'⟩ :=
      hopens (widthsFit_of_parse parse_twinSamples.1 (by omega))
    obtain ⟨-, -, hreads, hlookups⟩ := hread archive archive' ho ho'
    obtain ⟨value, value', hv, hv', hsimilar⟩ := hreads 0 (by omega)
    exact ⟨archive, archive', value, value', ho, ho', hv, hv', hsimilar, hlookups _ rfl 0 _⟩

end RecordStore
