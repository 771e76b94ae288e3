import RecordStore.Proofs.FlatValues
import RecordStore.Proofs.UniqueDerivations

/-!
# Trees of accepted formats

A schema is numbered by the way from the root to its nodes, and what else is read of a text does
not depend on its number. So every node of a tree is the tree of its own format text, but for its
place.

## Main definitions

* `Schema.renumber` — the same tree with other numbers.
* `Layout.WellFormed`, `Schema.WellFormed` — what holds of a node.

## Main statements

* `Format.parseAt_renumber` — a text is read alike in every place.
* `Format.parseAt_of_mem_nodes` — the nodes of a tree are read from their own texts.
* `nodes_of_parse` — the nodes of accepted formats.
-/

namespace RecordStore

/-! ## Places -/

def FlatNode.renumber (n : Nat) (node : FlatNode) : FlatNode :=
  ⟨⟨n, node.label.source⟩, node.layout⟩

def KeySpec.renumber (n : Nat) (keys : KeySpec) : KeySpec :=
  { keys with node := keys.node.renumber n }

namespace Schema

/-- The same tree, numbered in pre-order from another number on. -/
def renumber (n : Nat) : Schema → Schema
  | flat node => flat (node.renumber n)
  | sequence label element sep args =>
    sequence ⟨n, label.source⟩ (element.renumber (n + 1)) sep args
  | set label keys => set ⟨n, label.source⟩ (keys.renumber (n + 1))
  | map label keys value sep =>
    map ⟨n, label.source⟩ (keys.renumber (n + 1)) (value.renumber (n + 2)) sep
  | pair label first second sep =>
    pair ⟨n, label.source⟩ (first.renumber (n + 1)) (second.renumber (n + 1 + first.size)) sep

@[simp] theorem size_renumber (s : Schema) (n : Nat) : (s.renumber n).size = s.size := by
  induction s generalizing n with
  | flat | set => rfl
  | sequence _ _ _ _ ih | map _ _ _ _ ih => simp [renumber, size, ih]
  | pair _ _ _ _ ih₁ ih₂ => simp [renumber, size, ih₁, ih₂]

@[simp] theorem source_renumber (s : Schema) (n : Nat) : (s.renumber n).source = s.source := by
  cases s <;> rfl

@[simp] theorem ownSeparators_renumber (s : Schema) (n : Nat) :
    (s.renumber n).ownSeparators = s.ownSeparators := by
  cases s <;> rfl

@[simp] theorem ownCollision?_renumber (s : Schema) (n : Nat) (enclosing : List Bytes) :
    (s.renumber n).ownCollision? enclosing = s.ownCollision? enclosing := by
  simp [ownCollision?]

@[simp] theorem collisionIn?_renumber (s : Schema) (n : Nat) (enclosing : List Bytes) :
    (s.renumber n).collisionIn? enclosing = s.collisionIn? enclosing := by
  induction s generalizing n enclosing with
  | flat node => exact ownCollision?_renumber (flat node) n enclosing
  | set => rfl
  | sequence _ _ _ _ ih | map _ _ _ _ ih =>
    simp only [renumber, collisionIn?, ih]
    rfl
  | pair _ _ _ _ ih₁ ih₂ =>
    simp only [renumber, collisionIn?, ih₁, ih₂]
    rfl

/-- The nodes in pre-order are the node itself and those of its children in turn. -/
theorem nodes_eq (s : Schema) : s.nodes = s :: s.children.flatMap nodes := by
  cases s <;> simp [nodes, children]

theorem NumberedFrom.ordinal_eq {s : Schema} {n : Nat} (h : s.NumberedFrom n) :
    s.ordinal = n := by
  cases s with
  | flat => exact h
  | _ => exact h.1

/-- Numbers in pre-order count up from the number of the root. -/
theorem NumberedFrom.ordinals {s : Schema} {n : Nat} (h : s.NumberedFrom n) :
    s.nodes.map ordinal = List.range' n s.size := by
  induction s generalizing n with
  | flat node => exact congrArg (fun n => [n]) h
  | sequence label element sep args ih =>
    obtain ⟨rfl, h⟩ := h
    rw [nodes, List.map_cons, ih h, size, Nat.add_comm 1, List.range'_succ]
    rfl
  | set label keys =>
    obtain ⟨rfl, h⟩ := h
    exact congrArg (fun n => [label.ordinal, n]) h
  | map label keys value sep ih =>
    obtain ⟨rfl, hkey, h⟩ := h
    rw [nodes, List.map_cons, List.map_cons, ih h, size, Nat.add_comm 2, List.range'_succ,
      List.range'_succ]
    exact congrArg (label.ordinal :: · :: List.range' (label.ordinal + 2) value.size) hkey
  | pair label first second sep ih₁ ih₂ =>
    obtain ⟨rfl, h₁, h₂⟩ := h
    rw [nodes, List.map_cons, List.map_append, ih₁ h₁, ih₂ h₂, size, Nat.add_comm 1,
      List.range'_succ, ← List.range'_append_1]
    rfl

/-! ## Collisions below the root -/

/-- Separators that do not collide below some containers do not collide below fewer. -/
theorem collisionIn?_eq_none_of_subset {s : Schema} {more fewer : List Bytes}
    (h : s.collisionIn? more = none) (hsub : fewer ⊆ more) : s.collisionIn? fewer = none := by
  have hown {s : Schema} {more fewer : List Bytes} (hsub : fewer ⊆ more)
      (h : s.ownCollision? more = none) : s.ownCollision? fewer = none := by
    grind [ownCollision?_eq_none_iff]
  have happend (own : List Bytes) {more fewer : List Bytes} (hsub : fewer ⊆ more) :
      fewer ++ own ⊆ more ++ own :=
    List.append_subset.2 ⟨List.subset_append_of_subset_left _ hsub, List.subset_append_right _ _⟩
  induction s generalizing more fewer with
  | flat node => exact hown hsub h
  | sequence label element sep args ih =>
    simp only [collisionIn?, Option.or_eq_none_iff] at h ⊢
    exact ⟨hown hsub h.1, ih h.2 (happend _ hsub)⟩
  | set label keys =>
    simp only [collisionIn?, Option.or_eq_none_iff] at h ⊢
    exact ⟨hown hsub h.1, hown (happend _ hsub) h.2⟩
  | map label keys value sep ih =>
    simp only [collisionIn?, Option.or_eq_none_iff] at h ⊢
    exact ⟨hown hsub h.1, hown (happend _ hsub) h.2.1, ih h.2.2 (happend _ hsub)⟩
  | pair label first second sep ih₁ ih₂ =>
    simp only [collisionIn?, Option.or_eq_none_iff] at h ⊢
    exact ⟨hown hsub h.1, ih₁ h.2.1 (happend _ hsub), ih₂ h.2.2 (happend _ hsub)⟩

theorem collision?_of_mem_nodes {s : Schema} {enclosing : List Bytes}
    (h : s.collisionIn? enclosing = none) : ∀ node ∈ s.nodes, node.collision? = none := by
  have hroot {s : Schema} {enclosing : List Bytes} (h : s.collisionIn? enclosing = none) :
      s.collision? = none := collisionIn?_eq_none_of_subset h (List.nil_subset _)
  induction s generalizing enclosing with
  | flat => exact List.forall_mem_singleton.2 (hroot h)
  | sequence label element sep args ih =>
    refine List.forall_mem_cons.2 ⟨hroot h, ?_⟩
    simp only [collisionIn?, Option.or_eq_none_iff] at h
    exact ih h.2
  | set label keys =>
    refine List.forall_mem_cons.2 ⟨hroot h, List.forall_mem_singleton.2 ?_⟩
    simp only [collisionIn?, Option.or_eq_none_iff] at h
    exact @hroot (flat keys.node) _ h.2
  | map label keys value sep ih =>
    refine List.forall_mem_cons.2 ⟨hroot h, ?_⟩
    simp only [collisionIn?, Option.or_eq_none_iff] at h
    exact List.forall_mem_cons.2 ⟨@hroot (flat keys.node) _ h.2.1, ih h.2.2⟩
  | pair label first second sep ih₁ ih₂ =>
    refine List.forall_mem_cons.2 ⟨hroot h, ?_⟩
    simp only [collisionIn?, Option.or_eq_none_iff] at h
    exact List.forall_mem_append.2 ⟨ih₁ h.2.1, ih₂ h.2.2⟩

end Schema

/-! ## Reading in another place -/

namespace Format

theorem parseFlat?_renumber (text : List Char) (m n : Nat) :
    parseFlat? text m = (parseFlat? text n).map (·.map (FlatNode.renumber m)) := by
  rw [parseFlat?, parseFlat?, Option.map_map]
  refine congrArg (Option.map · _) (funext fun parts => ?_)
  rw [Function.comp_apply]
  cases parts.layout <;> rfl

theorem parseFlat?_eq_none_of {text : List Char} {n : Nat} (h : parseFlat? text n = none)
    (m : Nat) : parseFlat? text m = none := by
  rw [parseFlat?_renumber text m n, h, Option.map_none]

theorem parseKey_renumber (text : List Char) (m n : Nat) :
    parseKey text m = (parseKey text n).map (FlatNode.renumber m) := by
  rw [parseKey, parseKey, parseFlat?_renumber text m n]
  cases parseFlat? text n <;> rfl

/-- What a search finds changes with what its readers read. -/
theorem search_map {text : List Char} {α β : Type}
    {readFirst readFirst' : Candidate text → Option α}
    {readSecond readSecond' : Candidate text → α → Option β} (f : α → α) (g : α → β → β)
    {runs : List (Nat × List Char)} (hf : ∀ c, readFirst' c = (readFirst c).map f)
    (hs : ∀ c first, readSecond' c (f first) = (readSecond c first).map (g first)) :
    (search text readFirst' readSecond' runs).2 = (search text readFirst readSecond runs).2.map
      fun split => ⟨split.candidate, f split.first, g split.first split.second⟩ := by
  induction runs with
  | nil => rfl
  | cons run runs ih =>
    obtain ⟨start, sep⟩ := run
    rw [search, search]
    cases candidate? text start sep with
    | none => exact ih
    | some c =>
      dsimp only
      rw [hf]
      cases readFirst c with
      | none => exact ih
      | some first =>
        simp only [Option.map_some, hs]
        cases readSecond c first with
        | none => exact ih
        | some second => rfl

/-- A text is read as the same tree wherever it stands, or fails alike. -/
theorem parseAt_renumber (text : List Char) (m n : Nat) :
    parseAt text m = (parseAt text n).map (Schema.renumber m) := by
  induction hlen : text.length using Nat.strongRecOn generalizing text m n with
  | ind length ih =>
  subst hlen
  cases hf : parseFlat? text n with
  | some outcome =>
    have hf' : parseFlat? text m = some (outcome.map (FlatNode.renumber m)) := by
      rw [parseFlat?_renumber text m n, hf, Option.map_some]
    rw [parseAt_of_flat hf, parseAt_of_flat hf']
    cases outcome <;> rfl
  | none =>
  have hf' := parseFlat?_eq_none_of hf m
  cases hv : VectorText.read? text with
  | some parts =>
    rw [parseAt_of_vector hf hv, parseAt_of_vector hf' hv,
      ih _ (VectorText.length_element_lt hv) parts.element (m + 1) (n + 1) rfl]
    cases parseAt parts.element (n + 1) <;> cases unescape parts.sep <;> rfl
  | none =>
  cases ht : SetText.read? text with
  | some parts =>
    rw [parseAt_of_set hf hv ht, parseAt_of_set hf' hv ht, parseKey_renumber _ (m + 1) (n + 1)]
    cases parseKey parts.key (n + 1) <;> cases unescape parts.sep <;> rfl
  | none =>
  cases hm : MapText.read? text with
  | some parts =>
    rw [parseAt_of_map hf hv ht hm, parseAt_of_map hf' hv ht hm,
      parseKey_renumber _ (m + 1) (n + 1),
      ih _ (Nat.lt_of_succ_lt (MapText.length_value_lt hm)) parts.value (m + 2) (n + 2) rfl]
    cases parseKey parts.key (n + 1) <;> cases parseAt parts.value (n + 2) <;>
      cases unescape parts.keySep <;> cases unescape parts.sep <;> rfl
  | none =>
    have hside {side : List Char} (hlt : side.length < text.length) (m n : Nat) :
        side? side m = (side? side n).map (Schema.renumber m) := by
      rw [side?, side?, ih _ hlt side m n rfl]
      cases parseAt side n <;> split <;> rfl
    rw [parseAt_of_sides hf hv ht hm, parseAt_of_sides hf' hv ht hm,
      search_map (Schema.renumber (m + 1)) (fun first => Schema.renumber (m + 1 + first.size))
        (fun c => hside c.first_lt (m + 1) (n + 1))
        fun c first => by
          rw [Schema.size_renumber]
          exact hside c.second_lt (m + 1 + first.size) (n + 1 + first.size)]
    cases (search text (fun c => side? c.first (n + 1))
      (fun c first => side? c.second (n + 1 + first.size)) (pairRuns text)).2 with
    | none => rfl
    | some split =>
      simp only [Option.map_some, pairOf]
      split
      · cases unescape split.candidate.sep <;> rfl
      · rfl

/-- Every node of a tree is read from its own text. -/
theorem parseAt_of_mem_nodes {text : List Char} {n : Nat} {s : Schema}
    (h : parseAt text n = .ok s) :
    ∀ node ∈ s.nodes, parseAt node.source.toList node.ordinal = .ok node := by
  have hroot {text : List Char} {n : Nat} {s : Schema} (h : parseAt text n = .ok s) :
      parseAt s.source.toList s.ordinal = .ok s := by
    have hp := parses_of_parseAt h
    rwa [hp.source, String.toList_ofList, hp.numberedFrom.ordinal_eq]
  have hkey {text : List Char} {n : Nat} {key : FlatNode}
      (h : parseFlat? text n = some (.ok key)) :
      parseAt (Schema.flat key).source.toList (Schema.flat key).ordinal = .ok (.flat key) :=
    hroot (parseAt_of_flat h)
  induction s generalizing text n with
  | flat => exact List.forall_mem_singleton.2 (hroot h)
  | sequence label element sep args ih =>
    cases parsedBy_of_parseAt h with
    | sequence _ he _ => exact List.forall_mem_cons.2 ⟨hroot h, ih he⟩
  | set label keys =>
    cases parsedBy_of_parseAt h with
    | set _ hk _ => exact List.forall_mem_cons.2 ⟨hroot h, List.forall_mem_singleton.2 (hkey hk)⟩
  | map label keys value sep ih =>
    cases parsedBy_of_parseAt h with
    | map _ hk hv _ _ =>
      exact List.forall_mem_cons.2 ⟨hroot h, List.forall_mem_cons.2 ⟨hkey hk, ih hv⟩⟩
  | pair label first second sep ih₁ ih₂ =>
    cases parsedBy_of_parseAt h with
    | pair hf hr _ _ =>
      exact List.forall_mem_cons.2 ⟨hroot h, List.forall_mem_append.2 ⟨ih₁ hf, ih₂ hr⟩⟩

end Format

/-! ## Nodes of accepted formats -/

namespace Shape

def lone (prim : Prim) : Shape := ⟨[], [⟨prim, []⟩]⟩

theorem isRawByte_iff {shape : Shape} :
    shape.isRawByte = true ↔ shape = lone .char ∨ shape = lone .uchar := by
  obtain ⟨leading, fields⟩ := shape
  unfold isRawByte lone
  split <;> simp_all

end Shape

/-- What a type sequence can be read as. -/
structure Layout.WellFormed (layout : Layout) : Prop where
  fields : ∀ shape, layout = .struct shape ∨ layout = .structs shape → shape.fields ≠ []
  /-- A struct is more than a field alone. -/
  struct : ∀ prim, layout ≠ .struct (.lone prim)
  /-- A run of structs is a byte string if they are raw bytes. -/
  structs : ∀ shape, layout = .structs shape →
    (shape.isRawByte = true ↔ shape = .lone .char ∨ shape = .lone .uchar)

namespace Schema

/-- What holds of a node that was read, wherever it stands. -/
structure WellFormed (node : Schema) : Prop where
  /-- The first child of a keyed container is its key. -/
  key : ∀ label keys, node = .set label keys ∨ (∃ value sep, node = .map label keys value sep) →
    ∃ key, node.children.head? = some key ∧ key.isFlat = true
  separators : node.isFlat = false → ∀ sep ∈ node.ownSeparators, sep ≠ []
  width : node.isFlat = true → 0 < node.elementWidth
  layout : ∀ flatNode, node = .flat flatNode → flatNode.layout.WellFormed

end Schema

open Format in
theorem Format.Parses.wellFormed {text : List Char} {n : Nat} {s : Schema}
    (h : Parses text n s) : s.WellFormed where
  key := by
    rintro label keys (rfl | ⟨value, sep, rfl⟩) <;> exact ⟨_, rfl, rfl⟩
  separators := by
    have := h.separated
    cases s <;> simp_all [Schema.Separated, Schema.ownSeparators, Schema.isFlat]
  width := by
    intro hflat
    cases h with
    | flat hn => exact Layout.width_pos (isHollow_of_parseFlat? hn)
    | _ => cases hflat
  layout := by
    rintro node rfl
    cases h with
    | flat hn =>
      have hhollow := isHollow_of_parseFlat? hn
      obtain ⟨parts, shape, -, -, hl⟩ := exists_shape_of_parseFlat? hn
      refine ⟨?_, ?_, fun shape _ => Shape.isRawByte_iff⟩
      · rintro shape (hs | hs) <;> rw [hs] at hhollow <;>
          simpa [Layout.isHollow, Shape.isHollow] using hhollow
      · -- A struct was either starred away or left by the collapse of fields alone.
        intro prim
        rw [hl]
        unfold TypeSequence.collapse Shape.lone
        grind

/-- Every tree of an accepted format is well formed: its nodes are numbered from zero in pre-order,
each is well formed, and each is, but for its number, what its own format text is read as. -/
theorem nodes_of_parse {format : String} {s : Schema} (h : parse format = .ok s) :
    s.nodes.map Schema.ordinal = List.range s.size ∧
      ∀ node ∈ s.nodes, node.WellFormed ∧ parse node.source = .ok (node.renumber 0) := by
  obtain ⟨hread, hcollision⟩ := parse_eq_ok.1 h
  refine ⟨?_, fun node hm => ?_⟩
  · rw [(numberedFrom_of_parse h).ordinals, List.range_eq_range']
  have hnode := Format.parseAt_of_mem_nodes hread node hm
  refine ⟨(Format.parses_of_parseAt hnode).wellFormed, parse_eq_ok.2 ⟨?_, ?_⟩⟩
  · rw [Format.parseAt_renumber _ 0 node.ordinal, hnode]
    rfl
  · rw [Schema.collision?, Schema.collisionIn?_renumber]
    exact Schema.collision?_of_mem_nodes hcollision node hm

example : (parse "P(T(c),(l);)|(u)").map (fun s => s.nodes.map Schema.ordinal) =
    .ok [0, 1, 2, 3, 4] := by decide +kernel

def treeSample : Schema :=
  .pair ⟨0, "P(T(c*)=(V(l),);)|(u)"⟩
    (.map ⟨1, "T(c*)=(V(l),);"⟩ ⟨⟨⟨2, "c*"⟩, .structs (.lone .char)⟩, [0x3d], true, []⟩
      (.sequence ⟨3, "V(l),"⟩ (.flat ⟨⟨4, "l"⟩, .primitive .i32⟩) [0x2c] []) [0x3b])
    (.flat ⟨⟨5, "u"⟩, .primitive .utf16⟩) [0x7c]

theorem parse_treeSample : parse "P(T(c*)=(V(l),);)|(u)" = .ok treeSample := by decide +kernel

theorem nodes_treeSample :
    treeSample.nodes.map Schema.ordinal = [0, 1, 2, 3, 4, 5] ∧
      ∀ node ∈ treeSample.nodes,
        node.WellFormed ∧ parse node.source = .ok (node.renumber 0) :=
  nodes_of_parse parse_treeSample

end RecordStore
