import RecordStore.Proofs.CanonicalTexts

/-!
# Texts that are read back

Every decoded value has a text. It is decoded to the value again, up to its NaNs, where each
separator is a mark and each number has one behind it. Numbers without a separator between them run
together in the text.

## Main statements

* `decoded_value_reads_back` — the text of a decoded value.
-/

namespace RecordStore

/-- A decoded value has a text. In a legible schema the text is decoded to the same value, except
that every NaN is the quiet one, as long as no key holds another. -/
theorem decoded_value_reads_back {format : String} {schema : Schema}
    (hp : parse format = .ok schema) {chunk : Bytes} {value : Value}
    (hd : decode schema chunk = .ok value) :
    ∃ text, encode schema value = .ok text ∧
      (schema.Legible → value.Settled → decode schema text = .ok value.quiet) := by
  obtain ⟨text, ht⟩ := (Schema.hasForm_of_decode hd).exists_encode
  refine ⟨text, ht, ?_⟩
  intro hlegible hsettled
  have hm := Schema.marked_of_legible (separated_of_parse hp) hlegible (collision?_of_parse hp)
  obtain ⟨text', ht'⟩ := Schema.exists_canonical hm hd
  obtain rfl := Except.ok.inj (ht.symm.trans ht'.encode_eq)
  exact ht'.decode_eq hsettled

def realSample : Schema :=
  .sequence ⟨0, "V(d,)\\n"⟩ (.flat ⟨⟨1, "d,"⟩, .struct ⟨[], [⟨.f64, [0x2c]⟩]⟩⟩) [0x0a] []

theorem legible_realSample : realSample.Legible where
  marks sep hm := by
    have hs : sep = [0x0a] ∨ sep = [] ∨ sep = [0x2c] := by
      simpa [realSample, Layout.separators, Shape.separators] using hm
    rcases hs with rfl | rfl | rfl
    · exact .inr ⟨0x0a, by decide, rfl⟩
    · exact .inl rfl
    · exact .inr ⟨0x2c, by decide, rfl⟩
  ends_numbers node hm := by
    have hnode : node = ⟨⟨1, "d,"⟩, .struct ⟨[], [⟨.f64, [0x2c]⟩]⟩⟩ := by
      simpa [realSample, Schema.nodes] using hm
    subst hnode
    simp [Layout.EndsNumbers]

theorem real_sample_reads_back :
    ∃ value, decode realSample (Bytes.ofText "0.1,\n-nan,\n") = .ok value ∧
      encode realSample value = .ok (Bytes.ofText "0.10000000000000001,\nnan,\n") ∧
      decode realSample (Bytes.ofText "0.10000000000000001,\nnan,\n") = .ok value.quiet := by
  have htext : (decode realSample (Bytes.ofText "0.1,\n-nan,\n") >>= encode realSample) =
      .ok (Bytes.ofText "0.10000000000000001,\nnan,\n") := by decide +kernel
  obtain ⟨value, hd, henc⟩ := bind_eq_ok.1 htext
  have hsettled : value.Settled := by
    rw [realSample, decode] at hd
    obtain rfl := Except.ok.inj hd
    refine .seq fun item hm => ?_
    obtain ⟨piece, -, hitem⟩ := List.mem_filterMap.1 hm
    rw [toOption_eq_some, decode, map_eq_ok] at hitem
    obtain ⟨item, -, rfl⟩ := hitem
    exact .flat item
  obtain ⟨text, ht, hread⟩ := decoded_value_reads_back
    (by decide +kernel : parse "V(d,)\\n" = .ok realSample) hd
  obtain rfl := Except.ok.inj (ht.symm.trans henc)
  exact ⟨value, hd, henc, hread legible_realSample hsettled⟩

def joinedSample : Schema := .flat ⟨⟨0, "ll"⟩, .struct ⟨[], [⟨.i32, []⟩, ⟨.i32, []⟩]⟩⟩

/-- Numbers without a separator between them are written as one, which is not read as both. -/
theorem joined_sample_is_not_read_back :
    ∃ value, parse "ll" = .ok joinedSample ∧
      decode joinedSample (Bytes.ofText "1 2") = .ok value ∧
      encode joinedSample value = .ok (Bytes.ofText "12") ∧
      decode joinedSample (Bytes.ofText "12") = .error .unexpectedEnd := by
  have htext : (decode joinedSample (Bytes.ofText "1 2") >>= encode joinedSample) =
      .ok (Bytes.ofText "12") := by decide +kernel
  obtain ⟨value, hd, henc⟩ := bind_eq_ok.1 htext
  exact ⟨value, by decide +kernel, hd, henc, map_eq_error.2 (by decide +kernel)⟩

end RecordStore
