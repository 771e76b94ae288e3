import RecordStore.Proofs.JointBuilds
import RecordStore.Proofs.PlainRows

/-!
# Builds of plain schemas are read back

A build of a plain schema does not fail, and its file holds the values that the chunks of the input
are decoded to. It is read back unless a node of the schema is too wide.

## Main statements

* `plain_build_reads_back` — what is built is what was decoded.
* `wide_plain_build_is_not_read` — a plain schema whose file does not open.
-/

namespace RecordStore

/-- A build of a plain schema succeeds, whatever the input. Its file opens if and only if the widths
of the schema fit, and gives back the values of the chunks that can be decoded, with the entries of
keyed values in storage order. -/
theorem plain_build_reads_back {format : String} {schema : Schema}
    (hp : parse format = .ok schema) (hf : (Bytes.ofText format).length < 2 ^ 32)
    (ha : schema.ArgsFit) (hplain : schema.Plain) {outer : Option Bytes}
    (houter : (∃ delim, outer = some delim ∧ MarkOutside delim schema.separators) ∨
      (outer = none ∧ schema.isStreamed = false))
    (input : Bytes) :
    ∃ output summary, build .memory schema outer (.ok input) = (output, .ok summary) ∧
      (output.length < wordLimit →
        (Archive.Opens schema output ↔ schema.WidthsFit) ∧
        (Archive.Opens schema output →
          ∃ values, Archive.readAll schema output = .ok values ∧
            List.Forall₂ Value.Similar values
              (schema.accepted (Records.splitOptional outer input)))) := by
  have haddressed := Schema.addressed_of_parse hp hf ha
  have hseparated := separated_of_parse hp
  have hm := Schema.marked_of_plain hseparated hplain (collision?_of_parse hp)
  obtain ⟨rows, skipped, hrows, hagree⟩ := Schema.readsAs_splitOptional hseparated
    (hm.mono fun _ => Layout.Plain.legible) houter input
  have hr := Schema.holds_of_rows? hrows
  have hsimilar := Schema.similar_of_agrees hm (fun row hm => (hr row hm).hasForm)
    (fun value => Schema.hasForm_of_mem_accepted) hagree
  have hsource : (Bytes.ofText schema.source).length < 2 ^ 32 := by rwa [parse_source hp]
  refine ⟨_, _, build_of_rows? (by simp) (numberedFrom_of_parse hp) hrows, fun hlength => ?_⟩
  have hopens := Archive.opens_file_iff haddressed hsource hr hlength
  refine ⟨hopens, fun h => ⟨rows, ?_, hsimilar⟩⟩
  exact Archive.readAll_file (haddressed.storable (hopens.1 h)) hsource hr hlength

theorem separators_nestedSample : nestedSample.separators = [[0x3b], [0x2c]] := by
  simp [nestedSample, Layout.separators]

theorem plain_nestedSample : nestedSample.Plain where
  no_reals node hm prim hprim := by
    have hnode : node = ⟨⟨2, "l"⟩, .primitive .i32⟩ := by
      simpa [nestedSample, Schema.nodes] using hm
    subst hnode
    obtain rfl : prim = .i32 := by simpa [Layout.prims] using hprim
    decide
  marks sep hm := by
    rw [separators_nestedSample] at hm
    rcases List.mem_cons.1 hm with rfl | hm
    · exact .inr ⟨0x3b, by decide, rfl⟩
    · exact .inr ⟨0x2c, by decide, List.mem_singleton.1 hm⟩
  ends_numbers node hm := by
    have hnode : node = ⟨⟨2, "l"⟩, .primitive .i32⟩ := by
      simpa [nestedSample, Schema.nodes] using hm
    subst hnode
    trivial

theorem plain_sample_reads_back :
    ∃ output values,
      build .memory nestedSample (some [0x0a])
          (.ok (staged [0x0a] [Bytes.ofText "5,x,6,;", Bytes.ofText "7,;;"])) =
        (output, .ok ⟨2, 0, 170⟩) ∧
      Archive.readAll nestedSample output = .ok values ∧
        List.Forall₂ Value.Similar values
          (nestedSample.accepted (Records.splitOptional (some [0x0a])
            (staged [0x0a] [Bytes.ofText "5,x,6,;", Bytes.ofText "7,;;"]))) := by
  have hb := eq_of_snd_eq build_joint_sample
  have hformat := length_source_nestedSample
  have hlength := (bytesWritten_of_build (numberedFrom_of_parse parse_nestedSample) hb).symm
  have houter : MarkOutside [0x0a] nestedSample.separators :=
    ⟨0x0a, by decide, rfl, by rw [separators_nestedSample]; decide⟩
  obtain ⟨output, summary, hb', hread⟩ :=
    plain_build_reads_back parse_nestedSample (by omega) argsFit_nestedSample plain_nestedSample
      (.inl ⟨_, rfl, houter⟩) (staged [0x0a] [Bytes.ofText "5,x,6,;", Bytes.ofText "7,;;"])
  obtain ⟨rfl, hsummary⟩ := Prod.mk.inj (hb'.symm.trans hb)
  obtain ⟨hopens, hread⟩ := hread (by rw [hlength]; decide)
  obtain ⟨values, hvalues, hsimilar⟩ := hread (hopens.2 widthsFit_nestedSample)
  exact ⟨_, values, hb, hvalues, hsimilar⟩

/-! ## Wide schemas -/

def commaText : Format.WeakText := ⟨[','], List.forall_mem_singleton.2 rfl⟩

theorem bytes_commaText : commaText.bytes = [0x2c] := by decide

theorem separators_numbers {count : ℕ} {sep : Bytes}
    (h : sep ∈ (Schema.flat (numbersNode commaText count)).separators) :
    sep = [] ∨ sep = [0x2c] := by
  have hnone : sep = [] ∨ (count ≠ 0 ∧ sep = [0x2c]) := by
    simpa [numbersNode, Schema.separators, Schema.nodes, Schema.ownSeparators, Layout.separators,
      Shape.separators, bytes_commaText] using h
  exact hnone.imp_right And.right

/-- Numbers with a comma behind each are a plain schema. -/
theorem plain_numbers (count : ℕ) : (Schema.flat (numbersNode commaText count)).Plain where
  no_reals node hm prim hprim := by
    obtain rfl : node = numbersNode commaText count := by simpa [Schema.nodes] using hm
    obtain ⟨-, rfl⟩ : count ≠ 0 ∧ prim = .i64 := by
      simpa [numbersNode, Layout.prims] using hprim
    decide
  marks sep hm := (separators_numbers hm).imp id fun h => ⟨0x2c, by decide, h⟩
  ends_numbers node hm := by
    obtain rfl : node = numbersNode commaText count := by simpa [Schema.nodes] using hm
    intro field hfield _
    have hsep := List.eq_of_mem_replicate (List.mem_of_mem_dropLast hfield)
    simp [hsep, bytes_commaText]

theorem opens_of_readAll {schema : Schema} {bytes : Bytes} {values : List Value}
    (h : Archive.readAll schema bytes = .ok values) : Archive.Opens schema bytes := by
  rw [Archive.readAll] at h
  cases hopen : Archive.open schema bytes with
  | ok archive => exact ⟨archive, hopen⟩
  | error e => simp [hopen] at h

/-- A format of 2 ^ 29 numbers, each with a comma behind it, is plain. It is built, but its file
gives nothing back. -/
theorem wide_plain_build_is_not_read :
    parse (numbersText commaText (2 ^ 29)) = .ok (.flat (numbersNode commaText (2 ^ 29))) ∧
      (Bytes.ofText (numbersText commaText (2 ^ 29))).length < 2 ^ 32 ∧
      (Schema.flat (numbersNode commaText (2 ^ 29))).ArgsFit ∧
      (Schema.flat (numbersNode commaText (2 ^ 29))).Plain ∧
      MarkOutside [0x3b] (Schema.flat (numbersNode commaText (2 ^ 29))).separators ∧
      ∃ output summary,
        build .memory (.flat (numbersNode commaText (2 ^ 29))) (some [0x3b]) (.ok []) =
          (output, .ok summary) ∧
        output.length < wordLimit ∧ ∀ values,
          Archive.readAll (.flat (numbersNode commaText (2 ^ 29))) output ≠ .ok values := by
  have hcomma : commaText.bytes.length = 1 := by rw [bytes_commaText]; rfl
  have hout : [0x3b] ∉ (Schema.flat (numbersNode commaText (2 ^ 29))).separators := by
    intro hm
    rcases separators_numbers hm with h | h <;> simp at h
  obtain ⟨output, summary, hb, hl, hopens⟩ :=
    not_opens_numbers commaText le_rfl (by rw [hcomma]; decide)
  refine ⟨parse_numbersText _ (by omega), ?_, argsFit_numbers _, plain_numbers _,
    ⟨0x3b, by decide, rfl, hout⟩, output, summary, hb, hl, fun values h => ?_⟩
  · rw [length_numbersText, hcomma]
    decide
  · exact hopens (opens_of_readAll h)

end RecordStore
