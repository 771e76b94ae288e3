import RecordStore.Format.Walk
import RecordStore.Proofs.WellFormedTrees

/-!
# Collisions of accepted formats

A format is refused exactly if some node has a separator that begins like one of a container around
it. The separators that the check has at hand at a node are those of the containers around it: what
it has put on its stack for one child is off again before the next one.

## Main definitions

* `Schema.Encloses` — whether a node stands below another.
* `Schema.CollisionAt` — where separators collide.
* `Walk.Finds` — what a check finds, by what is on its stack.

## Main statements

* `Schema.finds_walk` — a walk finds what is looked for in each node with the separators around it.
* `Schema.exists_collisionAt`, `Schema.CollisionAt.collision?_ne_none` — a fault is found exactly
  if there is a collision.
* `parse_of_parseAt` — which formats are refused for their separators.
-/

namespace RecordStore

/-! ## One stack -/

namespace Walk

/-- Whether a check fails with the given fault, if there is one for the stack, and leaves the stack
as it was if there is none. -/
def Finds (check : Walk Unit) (fault? : List Bytes → Option FormatError) : Prop :=
  ∀ stack, check stack =
    match fault? stack with
    | some fault => .error fault
    | none => .ok ((), stack)

theorem finds_visit (s : Schema) : Finds (visit s) s.ownCollision? := by
  intro stack
  have hget : (get : Walk (List Bytes)) stack = .ok (stack, stack) := rfl
  simp only [visit, bind, StateT.bind, hget, Except.bind]
  cases s.ownCollision? stack <;> rfl

variable {first second children : Walk Unit} {f g : List Bytes → Option FormatError}

theorem Finds.seq (hf : Finds first f) (hg : Finds second g) :
    Finds (do first; second) fun stack => (f stack).or (g stack) := by
  intro stack
  have hbind : (do first; second : Walk Unit) stack =
      (first stack).bind fun outcome => second outcome.2 := rfl
  rw [hbind, hf stack]
  dsimp only
  cases f stack with
  | some fault => rfl
  | none => exact hg stack

/-- Behind the children the stack is what it was before them. -/
theorem Finds.inside (hf : Finds children f) (s : Schema) :
    Finds (inside s children) fun stack => f (stack ++ s.ownSeparators) := by
  intro stack
  have hbind : Walk.inside s children stack =
      (children (stack ++ s.ownSeparators)).bind fun outcome =>
        .ok ((), outcome.2.take stack.length) := rfl
  rw [hbind, hf]
  dsimp only
  cases f (stack ++ s.ownSeparators) with
  | some fault => rfl
  | none => exact congrArg (fun stack => Except.ok ((), stack)) List.take_left

end Walk

namespace Schema

/-- A walk finds what is looked for in each node with the separators around it. -/
theorem finds_walk (s : Schema) : s.walk.Finds fun stack => s.collisionIn? stack := by
  induction s with
  | flat node => exact Walk.finds_visit (flat node)
  | sequence label element sep args ih =>
    exact (Walk.finds_visit _).seq (ih.inside _)
  | set label keys =>
    exact (Walk.finds_visit _).seq ((Walk.finds_visit _).inside _)
  | map label keys value sep ih =>
    exact (Walk.finds_visit _).seq (((Walk.finds_visit _).seq ih).inside _)
  | pair label first second sep ih₁ ih₂ =>
    exact (Walk.finds_visit _).seq ((ih₁.seq ih₂).inside _)

/-! ## Containers around a node -/

def Encloses (container node : Schema) : Prop :=
  ∃ child ∈ container.children, node ∈ child.nodes

theorem mem_nodes_self (s : Schema) : s ∈ s.nodes := by
  rw [nodes_eq]
  exact List.mem_cons_self

theorem mem_nodes_of_child {s child node : Schema} (hc : child ∈ s.children)
    (hn : node ∈ child.nodes) : node ∈ s.nodes := by
  rw [nodes_eq]
  exact List.mem_cons_of_mem _ (List.mem_flatMap.2 ⟨child, hc, hn⟩)

theorem mem_nodes_iff {s node : Schema} : node ∈ s.nodes ↔ node = s ∨ s.Encloses node := by
  rw [nodes_eq, List.mem_cons, List.mem_flatMap]
  rfl

/-- Only containers have nodes below them. -/
theorem isFlat_of_encloses {container node : Schema} (h : container.Encloses node) :
    container.isFlat = false := by
  obtain ⟨child, hc, -⟩ := h
  cases container with
  | flat => cases hc
  | _ => rfl

/-- A statement on trees goes from the children of a node to the node. -/
theorem induction_children {P : Schema → Prop}
    (step : ∀ s, (∀ child ∈ s.children, P child) → P s) (s : Schema) : P s := by
  have hflat (node : FlatNode) : P (flat node) := step _ fun child hc => by cases hc
  induction s with
  | flat node => exact hflat node
  | sequence label element sep args ih => exact step _ (List.forall_mem_singleton.2 ih)
  | set label keys => exact step _ (List.forall_mem_singleton.2 (hflat keys.node))
  | map label keys value sep ih =>
    exact step _ (List.forall_mem_cons.2 ⟨hflat keys.node, List.forall_mem_singleton.2 ih⟩)
  | pair label first second sep ih₁ ih₂ =>
    exact step _ (List.forall_mem_cons.2 ⟨ih₁, List.forall_mem_singleton.2 ih₂⟩)

/-- A fault of a node comes before those of its children, which have its separators around them. -/
theorem collisionIn?_eq (s : Schema) (enclosing : List Bytes) :
    s.collisionIn? enclosing = (s.ownCollision? enclosing).or
      (s.children.findSome? fun child => child.collisionIn? (enclosing ++ s.ownSeparators)) := by
  have hcons (child : Schema) (rest : List Schema) (f : Schema → Option FormatError) :
      (child :: rest).findSome? f = (f child).or (rest.findSome? f) := by
    rw [List.findSome?_cons]
    cases f child <;> rfl
  cases s <;> simp only [collisionIn?, children, hcons, List.findSome?_nil, Option.or_none]

/-! ## Collisions -/

/-- Whether a separator of a node and one of a container around it are present, and one of them
begins the other. -/
structure CollisionAt (s node : Schema) (inner outer : Bytes) : Prop where
  node_mem : node ∈ s.nodes
  container : ∃ container ∈ s.nodes, container.isFlat = false ∧ container.Encloses node ∧
    outer ∈ container.ownSeparators
  inner_mem : inner ∈ node.ownSeparators
  inner_ne_nil : inner ≠ []
  outer_ne_nil : outer ≠ []
  begins : inner <+: outer ∨ outer <+: inner

theorem collides_iff {inner outer : Bytes} :
    collides inner outer = true ↔
      inner ≠ [] ∧ outer ≠ [] ∧ (inner <+: outer ∨ outer <+: inner) := by
  simp [collides, and_assoc, or_comm]

/-- A fault is a collision with one of the separators around the tree, or inside it. -/
theorem exists_collision {s : Schema} {enclosing : List Bytes} {fault : FormatError}
    (h : s.collisionIn? enclosing = some fault) :
    ∃ node ∈ s.nodes, ∃ inner ∈ node.ownSeparators, ∃ outer,
      fault = .separatorCollision node.source inner outer ∧ collides inner outer = true ∧
        (outer ∈ enclosing ∨
          ∃ container ∈ s.nodes, container.Encloses node ∧ outer ∈ container.ownSeparators) := by
  induction s using induction_children generalizing enclosing with
  | step s ih =>
  rw [collisionIn?_eq, Option.or_eq_some_iff] at h
  rcases h with h | ⟨-, h⟩
  · obtain ⟨inner, hi, h⟩ := List.exists_of_findSome?_eq_some h
    obtain ⟨outer, ho, rfl⟩ := Option.map_eq_some_iff.1 h
    exact ⟨s, s.mem_nodes_self, inner, hi, outer, rfl, List.find?_some ho,
      .inl (List.mem_of_find?_eq_some ho)⟩
  · obtain ⟨child, hc, h⟩ := List.exists_of_findSome?_eq_some h
    obtain ⟨node, hn, inner, hi, outer, hfault, hcollides, ho⟩ := ih child hc h
    refine ⟨node, mem_nodes_of_child hc hn, inner, hi, outer, hfault, hcollides, ?_⟩
    rcases ho with ho | ⟨container, hm, hencloses, ho⟩
    · exact (List.mem_append.1 ho).imp_right fun ho => ⟨s, s.mem_nodes_self, ⟨child, hc, hn⟩, ho⟩
    · exact .inr ⟨container, mem_nodes_of_child hc hm, hencloses, ho⟩

/-- Where no fault is found, no node collides with the separators around the tree. -/
theorem ownCollision?_of_mem_nodes {s node : Schema} {enclosing : List Bytes}
    (h : s.collisionIn? enclosing = none) (hn : node ∈ s.nodes) :
    node.ownCollision? enclosing = none := by
  induction s using induction_children generalizing enclosing with
  | step s ih =>
  rw [collisionIn?_eq, Option.or_eq_none_iff, List.findSome?_eq_none_iff] at h
  rcases mem_nodes_iff.1 hn with rfl | ⟨child, hc, hn⟩
  · exact h.1
  · have hchild := ownCollision?_eq_none_iff.1 (ih child hc (h.2 child hc) hn)
    exact ownCollision?_eq_none_iff.2 fun inner hi outer ho =>
      hchild inner hi outer (List.mem_append_left _ ho)

/-- Where no fault is found, no node collides with a container around it. -/
theorem collides_of_encloses {s container node : Schema} (h : s.collision? = none)
    (hc : container ∈ s.nodes) (hn : container.Encloses node) :
    ∀ inner ∈ node.ownSeparators, ∀ outer ∈ container.ownSeparators,
      collides inner outer = false := by
  obtain ⟨child, hchild, hn⟩ := hn
  have hcontainer := collision?_of_mem_nodes h container hc
  rw [collision?, collisionIn?_eq, Option.or_eq_none_iff, List.findSome?_eq_none_iff] at hcontainer
  exact ownCollision?_eq_none_iff.1 (ownCollision?_of_mem_nodes (hcontainer.2 child hchild) hn)

theorem exists_collisionAt {s : Schema} {fault : FormatError} (h : s.collision? = some fault) :
    ∃ node inner outer, s.CollisionAt node inner outer ∧
      fault = .separatorCollision node.source inner outer := by
  obtain ⟨node, hn, inner, hi, outer, hfault, hcollides, ho⟩ := exists_collision h
  obtain ⟨container, hc, hencloses, ho⟩ := ho.resolve_left List.not_mem_nil
  obtain ⟨hinner, houter, hbegins⟩ := collides_iff.1 hcollides
  exact ⟨node, inner, outer,
    ⟨hn, ⟨container, hc, isFlat_of_encloses hencloses, hencloses, ho⟩, hi, hinner, houter,
      hbegins⟩, hfault⟩

theorem CollisionAt.collision?_ne_none {s node : Schema} {inner outer : Bytes}
    (h : s.CollisionAt node inner outer) : s.collision? ≠ none := by
  intro hnone
  obtain ⟨container, hc, -, hencloses, ho⟩ := h.container
  have hfalse := collides_of_encloses hnone hc hencloses inner h.inner_mem outer ho
  have htrue := collides_iff.2 ⟨h.inner_ne_nil, h.outer_ne_nil, h.begins⟩
  exact Bool.false_ne_true (hfalse.symm.trans htrue)

end Schema

/-! ## Accepted formats -/

theorem parse_eq_collision? {format : String} {schema : Schema}
    (h : Format.parseAt format.toList 0 = .ok schema) :
    parse format =
      match schema.collision? with
      | some fault => .error fault
      | none => .ok schema := by
  rw [parse, h, ok_bind]
  cases schema.collision? <;> rfl

/-- A format that can be read is refused for its separators exactly if some node has one that
collides with one of a container around it, and the error names such a node and such separators.
Else its tree is what was read. The same is found in one walk with one stack. -/
theorem parse_of_parseAt {format : String} {schema : Schema}
    (h : Format.parseAt format.toList 0 = .ok schema) :
    ((∃ source inner outer, parse format = .error (.separatorCollision source inner outer)) ↔
        ∃ node inner outer, schema.CollisionAt node inner outer) ∧
      (¬(∃ node inner outer, schema.CollisionAt node inner outer) → parse format = .ok schema) ∧
      (∀ fault, parse format = .error fault → ∃ node inner outer,
        schema.CollisionAt node inner outer ∧
          fault = .separatorCollision node.source inner outer) ∧
      parse format = (schema.walk []).map fun _ => schema := by
  have hwalk : schema.walk [] =
      match schema.collision? with
      | some fault => .error fault
      | none => .ok ((), []) := schema.finds_walk []
  rw [parse_eq_collision? h, hwalk]
  cases hfault : schema.collision? with
  | none =>
    have hnone : ¬∃ node inner outer, schema.CollisionAt node inner outer :=
      fun ⟨_, _, _, hat⟩ => hat.collision?_ne_none hfault
    exact ⟨by simp [hnone], fun _ => rfl, by simp, rfl⟩
  | some fault =>
    obtain ⟨node, inner, outer, hat, rfl⟩ := Schema.exists_collisionAt hfault
    refine ⟨iff_of_true ⟨_, _, _, rfl⟩ ⟨node, inner, outer, hat⟩, fun hn => ?_, ?_, rfl⟩
    · exact absurd ⟨node, inner, outer, hat⟩ hn
    · rintro _ ⟨⟩
      exact ⟨node, inner, outer, hat, rfl⟩

def siblingSample : Schema :=
  .pair ⟨0, "P(V(l),)|(V(c),)"⟩
    (.sequence ⟨1, "V(l),"⟩ (.flat ⟨⟨2, "l"⟩, .primitive .i32⟩) [0x2c] [])
    (.sequence ⟨3, "V(c),"⟩ (.flat ⟨⟨4, "c"⟩, .primitive .char⟩) [0x2c] []) [0x7c]

/-- Lists under numbers, of which the separators of the elements begin like that of the numbers. -/
def overlappingSample : Schema :=
  .map ⟨0, "T(l)=(V(l)=x);"⟩ ⟨⟨⟨1, "l"⟩, .primitive .i32⟩, [0x3d], true, []⟩
    (.sequence ⟨2, "V(l)=x"⟩ (.flat ⟨⟨3, "l"⟩, .primitive .i32⟩) [0x3d, 0x78] []) [0x3b]

theorem collisionAt_overlappingSample : overlappingSample.CollisionAt
    (.sequence ⟨2, "V(l)=x"⟩ (.flat ⟨⟨3, "l"⟩, .primitive .i32⟩) [0x3d, 0x78] [])
    [0x3d, 0x78] [0x3d] where
  node_mem := by decide
  container := ⟨overlappingSample, Schema.mem_nodes_self _, rfl,
    ⟨_, List.mem_cons_of_mem _ List.mem_cons_self, Schema.mem_nodes_self _⟩, by decide⟩
  inner_mem := by decide
  inner_ne_nil := by decide
  outer_ne_nil := by decide
  begins := by decide

/-- The separator of one sibling is off the stack before the other one, and that of a key encloses
the value. -/
theorem parse_of_parsed_samples :
    Format.parseAt "P(V(l),)|(V(c),)".toList 0 = .ok siblingSample ∧
      parse "P(V(l),)|(V(c),)" = .ok siblingSample ∧
      Format.parseAt "T(l)=(V(l)=x);".toList 0 = .ok overlappingSample ∧
      ∃ source inner outer,
        parse "T(l)=(V(l)=x);" = .error (.separatorCollision source inner outer) := by
  have hsibling : Format.parseAt "P(V(l),)|(V(c),)".toList 0 = .ok siblingSample := by
    decide +kernel
  have hoverlapping : Format.parseAt "T(l)=(V(l)=x);".toList 0 = .ok overlappingSample := by
    decide +kernel
  obtain ⟨-, -, -, hwalk⟩ := parse_of_parseAt hsibling
  obtain ⟨hcollision, -⟩ := parse_of_parseAt hoverlapping
  exact ⟨hsibling, hwalk, hoverlapping,
    hcollision.2 ⟨_, _, _, collisionAt_overlappingSample⟩⟩

end RecordStore
