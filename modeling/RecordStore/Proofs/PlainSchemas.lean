import RecordStore.Proofs.FlatTexts
import RecordStore.Proofs.ParsedSchemas

/-!
# Plain and legible schemas

In a legible schema each separator is a mark, which no number is written with, and each number is
ended by one. Since separators of nested nodes do not collide, the mark that delimits the records
of a container occurs nowhere in the text of what it holds. A plain schema has no real numbers
besides.

## Main definitions

* `Schema.Legible`, `Schema.Plain` — legible and plain schemas.
* `Schema.Marked` — what is needed of a node and its parts.

## Main statements

* `Schema.marked_of_legible`, `Schema.marked_of_plain` — a schema without collisions is delimited
  by marks.
-/

namespace RecordStore

namespace Schema

def separators (s : Schema) : List Bytes := s.nodes.flatMap ownSeparators

structure Legible (s : Schema) : Prop where
  marks : ∀ sep ∈ s.separators, PlainSeparator sep
  ends_numbers : ∀ node, flat node ∈ s.nodes → node.layout.EndsNumbers

/-- Whether no field is a real number, each separator is empty or a mark, and each number is
ended. -/
structure Plain (s : Schema) : Prop where
  no_reals : ∀ node, flat node ∈ s.nodes → ∀ prim ∈ node.layout.prims, prim ≠ .f32 ∧ prim ≠ .f64
  marks : ∀ sep ∈ s.separators, PlainSeparator sep
  ends_numbers : ∀ node, flat node ∈ s.nodes → node.layout.EndsNumbers

end Schema

def MarkOutside (sep : Bytes) (inside : List Bytes) : Prop :=
  ∃ b, Bytes.isMark b = true ∧ sep = [b] ∧ sep ∉ inside

/-- Whether all flat nodes have layouts of a kind, and containers are delimited by marks that do not
separate anything inside them. -/
def Schema.Marked (Kind : Layout → Prop) : Schema → Prop
  | flat node => node.layout.isHollow = false ∧ Kind node.layout
  | sequence _ element sep _ => MarkOutside sep element.separators ∧ element.Marked Kind
  | set _ keys =>
    MarkOutside keys.sep keys.node.layout.separators ∧ keys.node.layout.isHollow = false ∧
      Kind keys.node.layout
  | map _ keys value sep =>
    (MarkOutside keys.sep keys.node.layout.separators ∧
      MarkOutside sep keys.node.layout.separators ∧ keys.node.layout.isHollow = false ∧
        Kind keys.node.layout) ∧ MarkOutside sep value.separators ∧ value.Marked Kind
  | pair _ first second sep =>
    MarkOutside sep first.separators ∧ first.Marked Kind ∧ second.Marked Kind

namespace Schema

@[simp] theorem separators_flat (node : FlatNode) :
    (flat node).separators = node.layout.separators := by
  simp [separators, nodes, ownSeparators]

@[simp] theorem separators_sequence (label : Label) (element : Schema) (sep : Bytes)
    (args : List String) :
    (sequence label element sep args).separators = sep :: element.separators := by
  simp [separators, nodes, ownSeparators]

@[simp] theorem separators_set (label : Label) (keys : KeySpec) :
    (set label keys).separators = keys.sep :: keys.node.layout.separators := by
  simp [separators, nodes, ownSeparators]

@[simp] theorem separators_map (label : Label) (keys : KeySpec) (value : Schema) (sep : Bytes) :
    (map label keys value sep).separators =
      keys.sep :: sep :: (keys.node.layout.separators ++ value.separators) := by
  simp [separators, nodes, ownSeparators]

@[simp] theorem separators_pair (label : Label) (first second : Schema) (sep : Bytes) :
    (pair label first second sep).separators =
      sep :: (first.separators ++ second.separators) := by
  simp [separators, nodes, ownSeparators]

theorem collides_self {sep : Bytes} (h : sep ≠ []) : collides sep sep = true := by
  simp [collides, h]

theorem not_mem_ownSeparators {s : Schema} {enclosing : List Bytes}
    (h : s.ownCollision? enclosing = none) :
    ∀ outer ∈ enclosing, outer ≠ [] → outer ∉ s.ownSeparators := by
  intro outer hm hne hown
  have := ownCollision?_eq_none_iff.1 h outer hown outer hm
  simp [collides_self hne] at this

/-- No separator of an enclosing container occurs inside it. -/
theorem not_mem_separators {s : Schema} {enclosing : List Bytes}
    (h : s.collisionIn? enclosing = none) :
    ∀ outer ∈ enclosing, outer ≠ [] → outer ∉ s.separators := by
  intro outer hm hne
  induction s generalizing enclosing with
  | flat node =>
    rw [separators_flat]
    exact not_mem_ownSeparators h outer hm hne
  | sequence label element sep args ih =>
    simp only [collisionIn?, Option.or_eq_none_iff] at h
    have := not_mem_ownSeparators h.1 outer hm hne
    have := ih h.2 (List.mem_append_left _ hm)
    simp_all [ownSeparators]
  | set label keys =>
    simp only [collisionIn?, Option.or_eq_none_iff] at h
    have := not_mem_ownSeparators h.1 outer hm hne
    have := not_mem_ownSeparators h.2 outer (List.mem_append_left _ hm) hne
    simp_all [ownSeparators]
  | map label keys value sep ih =>
    simp only [collisionIn?, Option.or_eq_none_iff] at h
    have := not_mem_ownSeparators h.1 outer hm hne
    have := not_mem_ownSeparators h.2.1 outer (List.mem_append_left _ hm) hne
    have := ih h.2.2 (List.mem_append_left _ hm)
    simp_all [ownSeparators]
  | pair label first second sep ih₁ ih₂ =>
    simp only [collisionIn?, Option.or_eq_none_iff] at h
    have := not_mem_ownSeparators h.1 outer hm hne
    have := ih₁ h.2.1 (List.mem_append_left _ hm)
    have := ih₂ h.2.2 (List.mem_append_left _ hm)
    simp_all [ownSeparators]

theorem markOutside_of {sep : Bytes} {inside : List Bytes} (hp : PlainSeparator sep)
    (hne : sep ≠ []) (hout : sep ∉ inside) : MarkOutside sep inside := by
  rcases hp with hnil | ⟨b, hb, hone⟩
  · exact absurd hnil hne
  · exact ⟨b, hb, hone, hout⟩

theorem layout_separators_subset {s : Schema} {node : FlatNode} (h : flat node ∈ s.nodes) :
    node.layout.separators ⊆ s.separators := by
  intro sep hm
  exact List.mem_flatMap.2 ⟨flat node, h, hm⟩

/-- The containers of a schema without collisions are delimited by marks if all separators are
marks. -/
theorem marked_of_marks {Kind : Layout → Prop} {s : Schema} {enclosing : List Bytes}
    (hs : s.Separated) (hc : s.collisionIn? enclosing = none)
    (hmarks : ∀ sep ∈ s.separators, PlainSeparator sep)
    (hkind : ∀ node, flat node ∈ s.nodes → Kind node.layout) : s.Marked Kind := by
  induction s generalizing enclosing with
  | flat node => exact ⟨hs, hkind node List.mem_cons_self⟩
  | sequence label element sep args ih =>
    obtain ⟨hsep, hs⟩ := hs
    simp only [collisionIn?, Option.or_eq_none_iff] at hc
    have hout := not_mem_separators hc.2 sep (by simp [ownSeparators]) hsep
    exact ⟨markOutside_of (hmarks sep (by simp)) hsep hout,
      ih hs hc.2 (fun sep hm => hmarks sep (by simp [hm]))
        fun node hm => hkind node (by simp [nodes, hm])⟩
  | set label keys =>
    obtain ⟨hkey, hs⟩ := hs
    simp only [collisionIn?, Option.or_eq_none_iff] at hc
    have hout := not_mem_separators (s := flat keys.node) hc.2 keys.sep
      (by simp [ownSeparators]) hkey
    rw [separators_flat] at hout
    exact ⟨markOutside_of (hmarks keys.sep (by simp)) hkey hout, hs,
      hkind keys.node (by simp [nodes])⟩
  | map label keys value sep ih =>
    obtain ⟨hkey, hcount, hsep, hs⟩ := hs
    simp only [collisionIn?, Option.or_eq_none_iff] at hc
    have hnode := not_mem_separators (s := flat keys.node) hc.2.1
    have hvalue := not_mem_separators hc.2.2 sep (by simp [ownSeparators]) hsep
    rw [separators_flat] at hnode
    exact ⟨⟨markOutside_of (hmarks keys.sep (by simp)) hkey
          (hnode keys.sep (by simp [ownSeparators]) hkey),
        markOutside_of (hmarks sep (by simp)) hsep (hnode sep (by simp [ownSeparators]) hsep),
        hcount, hkind keys.node (by simp [nodes])⟩,
      markOutside_of (hmarks sep (by simp)) hsep hvalue,
      ih hs hc.2.2 (fun sep hm => hmarks sep (by simp [hm]))
        fun node hm => hkind node (by simp [nodes, hm])⟩
  | pair label first second sep ih₁ ih₂ =>
    obtain ⟨hsep, hs₁, hs₂⟩ := hs
    simp only [collisionIn?, Option.or_eq_none_iff] at hc
    have hout := not_mem_separators hc.2.1 sep (by simp [ownSeparators]) hsep
    exact ⟨markOutside_of (hmarks sep (by simp)) hsep hout,
      ih₁ hs₁ hc.2.1 (fun sep hm => hmarks sep (by simp [hm]))
        fun node hm => hkind node (by simp [nodes, hm]),
      ih₂ hs₂ hc.2.2 (fun sep hm => hmarks sep (by simp [hm]))
        fun node hm => hkind node (by simp [nodes, hm])⟩

/-- The containers of a legible schema without collisions are delimited by marks. -/
theorem marked_of_legible {s : Schema} {enclosing : List Bytes} (hs : s.Separated)
    (hl : s.Legible) (hc : s.collisionIn? enclosing = none) : s.Marked Layout.Legible :=
  marked_of_marks hs hc hl.marks fun node hm =>
    ⟨fun sep hsep => hl.marks sep (layout_separators_subset hm hsep), hl.ends_numbers node hm⟩

/-- The containers of a plain schema without collisions are delimited by marks. -/
theorem marked_of_plain {s : Schema} {enclosing : List Bytes} (hs : s.Separated) (hp : s.Plain)
    (hc : s.collisionIn? enclosing = none) : s.Marked Layout.Plain :=
  marked_of_marks hs hc hp.marks fun node hm =>
    ⟨hp.no_reals node hm, fun sep hsep => hp.marks sep (layout_separators_subset hm hsep),
      hp.ends_numbers node hm⟩

theorem Marked.mono {Kind Kind' : Layout → Prop} {s : Schema}
    (h : ∀ layout, Kind layout → Kind' layout) (hs : s.Marked Kind) : s.Marked Kind' := by
  induction s with
  | flat node => exact ⟨hs.1, h _ hs.2⟩
  | sequence label element sep args ih => exact ⟨hs.1, ih hs.2⟩
  | set label keys => exact ⟨hs.1, hs.2.1, h _ hs.2.2⟩
  | map label keys value sep ih =>
    obtain ⟨⟨hkeys, hnode, hn, hkind⟩, hsep, hs⟩ := hs
    exact ⟨⟨hkeys, hnode, hn, h _ hkind⟩, hsep, ih hs⟩
  | pair label first second sep ih₁ ih₂ => exact ⟨hs.1, ih₁ hs.2.1, ih₂ hs.2.2⟩

end Schema

end RecordStore
