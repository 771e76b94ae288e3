import RecordStore.Proofs.LegibleRows

/-!
# Rows of plain schemas

A plain schema is legible and has no real numbers, so its rows are the values that the chunks are
decoded to as they are, up to the order of entries.

## Main definitions

* `Value.Steady` — values without NaNs.

## Main statements

* `Schema.steady_of_hasForm` — what has the form of a plain schema holds no NaN.
* `Schema.similar_of_agrees` — the rows of a plain schema.
-/

namespace RecordStore

/-- Whether a value is read back as it is. -/
def Value.Steady (value : Value) : Prop := value.Settled ∧ value.quiet = value

namespace Value

theorem steady_keyed {entries : List (Value × Option Value)}
    (hkey : ∀ entry ∈ entries, entry.1.quiet = entry.1)
    (hitem : ∀ entry ∈ entries, ∀ item, entry.2 = some item → Steady item) :
    Steady (.keyed entries) := by
  refine ⟨.keyed hkey fun entry hm item he => (hitem entry hm item he).1, ?_⟩
  rw [quiet_keyed, List.map_congr_left (g := id), List.map_id]
  rintro ⟨key, item⟩ hm
  cases item with
  | none => simp [hkey _ hm]
  | some item => simp [hkey _ hm, (hitem _ hm item rfl).2]

end Value

namespace Schema

/-- What has the form of a plain schema holds no NaN. -/
theorem steady_of_hasForm {s : Schema} (hs : s.Marked Layout.Plain) {value : Value}
    (h : s.HasForm value) : value.Steady := by
  have hkeys {keys : KeySpec} (hp : keys.node.layout.Plain) {key : Value}
      (hk : ∃ flatKey, key = .flat flatKey ∧ keys.node.layout.Holds flatKey) :
      key.quiet = key := by
    obtain ⟨flatKey, rfl, hform⟩ := hk
    rw [Value.quiet_flat, FlatNode.quiet_eq hp hform]
  induction h with
  | flat h => exact ⟨.flat _, by rw [Value.quiet_flat, FlatNode.quiet_eq hs.2 h]⟩
  | sequence _ ih =>
    refine ⟨.seq fun item hm => (ih item hm hs.2).1, ?_⟩
    rw [Value.quiet_seq, List.map_congr_left (g := id) fun item hm => (ih item hm hs.2).2,
      List.map_id]
  | set hkey hnone =>
    refine Value.steady_keyed (fun entry hm => hkeys hs.2.2 (hkey entry hm)) ?_
    intro entry hm item he
    rw [hnone entry hm] at he
    cases he
  | map hkey _ _ ih =>
    exact Value.steady_keyed (fun entry hm => hkeys hs.1.2.2.2 (hkey entry hm))
      fun entry hm item he => ih entry hm item he hs.2.2
  | pair _ _ ih₁ ih₂ =>
    obtain ⟨hsettled₁, hquiet₁⟩ := ih₁ hs.2.1
    obtain ⟨hsettled₂, hquiet₂⟩ := ih₂ hs.2.2
    exact ⟨.pair hsettled₁ hsettled₂, by rw [Value.quiet_pair, hquiet₁, hquiet₂]⟩

theorem hasForm_of_mem_accepted {s : Schema} {chunks : List Bytes} {value : Value}
    (h : value ∈ s.accepted chunks) : s.HasForm value := by
  obtain ⟨chunk, -, hd⟩ := List.mem_filterMap.1 h
  exact hasForm_of_decode (toOption_eq_some.1 hd)

/-- The rows of a plain schema are the values that agree with them. -/
theorem similar_of_agrees {s : Schema} (hs : s.Marked Layout.Plain) {rows values : List Value}
    (hr : ∀ row ∈ rows, s.HasForm row) (hv : ∀ value ∈ values, s.HasForm value)
    (h : List.Forall₂ Value.Agrees rows values) : List.Forall₂ Value.Similar rows values := by
  induction h with
  | nil => exact .nil
  | cons h _ ih =>
    obtain ⟨hrow, hr⟩ := List.forall_mem_cons.1 hr
    obtain ⟨hvalue, hv⟩ := List.forall_mem_cons.1 hv
    obtain ⟨hsettled, hquiet⟩ := steady_of_hasForm hs hvalue
    have hsimilar := h hsettled
    rw [(steady_of_hasForm hs hrow).2, hquiet] at hsimilar
    exact .cons hsimilar (ih hr hv)

end Schema

end RecordStore
