import RecordStore.Proofs.BuiltArchives
import RecordStore.Proofs.SoundSections

/-!
# Reading any bytes

An archive opened from any bytes is safe. Its views answer every access, a parent hands down only
indices of instances that its children have, and no query faults.

## Main definitions

* `Container.Sound` — what opening establishes.
* `Container.nodes` — the containers of a tree.
* `Container.Answers`, `Container.HandsDown` — what an opened container does for its readers.
* `Archive.Safe` — what an opened archive does for its users.

## Main statements

* `Container.ensures_takeNode` — opening gives sound containers.
* `Container.Sound.faultless_read` — reading a sound container does not fault.
* `Archive.open_safe` — opening any bytes reports an error or gives a safe archive.
-/

namespace RecordStore

namespace Container

/-! ## Opening -/

/-- The views passed their checks, and the children have the instances that are asked for. -/
def Sound : Container → Prop
  | flat _ _ view => view.Sound
  | ragged _ _ view => ∃ elements, view.Sound elements
  | sequence _ _ view element => view.Sound ∧ element.instances = view.total ∧ element.Sound
  | set _ _ _ view => view.Sound
  | map _ _ _ view value =>
    view.Sound ∧ (view.set = false → value.instances = view.total) ∧ value.Sound
  | pair _ _ instances first second =>
    (first.instances = instances ∧ second.instances = instances) ∧ first.Sound ∧ second.Sound

theorem ensures_checkChild (ordinal expected : Nat) (child : Container) :
    Ensures (fun _ => child.instances = expected) (checkChild ordinal expected child) := by
  rw [checkChild]
  by_cases h : child.instances = expected <;> simp [require, Ensures, h]

/-- Whatever the bytes are, opening reports an error or gives a sound container. -/
theorem ensures_takeNode (s : Schema) : Take.Ensures Sound (takeNode s) := by
  induction s with
  | flat node =>
    refine (ensures_takeSection _).bind fun raw _ => ?_
    obtain ⟨label, layout⟩ := node
    cases layout with
    | structs shape =>
      refine (Take.Ensures.ofExcept (ensures_readBody (ensures_takeRagged _) ..)).bind ?_
      exact fun view hv => .pure hv
    | _ =>
      refine (Take.Ensures.ofExcept (ensures_readBody (ensures_takeFlat _) ..)).bind ?_
      exact fun view hv => .pure hv
  | sequence label element sep args ih =>
    refine (ensures_takeSection _).bind fun raw _ => ?_
    refine (Take.Ensures.ofExcept (ensures_readBody (ensures_takeShape _) ..)).bind ?_
    intro view hv
    refine ih.bind fun child hc => ?_
    refine (Take.Ensures.ofExcept (ensures_checkChild ..)).bind fun _ hcount => ?_
    exact .pure ⟨hv, hcount, hc⟩
  | set label keys =>
    refine (ensures_takeSection _).bind fun raw _ => ?_
    refine (Take.Ensures.ofExcept (ensures_readBody (ensures_takeKeyed _ _) ..)).bind ?_
    exact fun view hv => .pure hv
  | map label keys value sep ih =>
    refine (ensures_takeSection _).bind fun raw _ => ?_
    refine (Take.Ensures.ofExcept (ensures_readBody (ensures_takeKeyed _ _) ..)).bind ?_
    intro view hv
    refine ih.bind fun child hc => ?_
    cases hset : view.set with
    | true => exact .pure ⟨hv, fun h => absurd (hset.symm.trans h) (by decide), hc⟩
    | false =>
      refine (Take.Ensures.ofExcept (ensures_checkChild ..)).bind fun _ hcount => ?_
      exact .pure ⟨hv, fun _ => hcount, hc⟩
  | pair label first second sep ih₁ ih₂ =>
    refine (ensures_takeSection _).bind fun raw _ => ?_
    refine (Take.Ensures.ofExcept (ensures_readBody (.number 8) ..)).bind fun instances _ => ?_
    refine ih₁.bind fun firstChild h₁ => ih₂.bind fun secondChild h₂ => ?_
    refine (Take.Ensures.ofExcept (ensures_checkChild ..)).bind fun _ hfirst => ?_
    refine (Take.Ensures.ofExcept (ensures_checkChild ..)).bind fun _ hsecond => ?_
    exact .pure ⟨⟨hfirst, hsecond⟩, h₁, h₂⟩

theorem ensures_open (s : Schema) (bytes : Bytes) : Ensures Sound (Container.open s bytes) := by
  refine Ensures.bind (ensures_takeNode s (.start bytes)) fun taken hs => ?_
  exact (Ensures.require ..).bind fun _ _ => hs

/-! ## Reading -/

theorem ensures_found {α : Type} {P : α → Prop} {access : Checked (Option α)} (ordinal index : Nat)
    (h : ∃ a?, access = .ok a? ∧ ∀ a ∈ a?, P a) : Ensures P (found ordinal index access) := by
  obtain ⟨a?, rfl, hp⟩ := h
  cases a? with
  | none => exact fun fault he => by cases he
  | some a => exact hp a rfl

theorem ensures_readStored (node : FlatNode) (bytes : Bytes) :
    Ensures (fun _ => True) (readStored node bytes) := by
  rw [readStored]
  cases node.read bytes with
  | error e => exact fun fault he => by cases he
  | ok value => trivial

/-- Reading the entries of an instance does not fault if reading what the keys lead to does not. -/
theorem ensures_readEntries {view : KeyedView} (hv : view.Answers) (ordinal : Nat) (keys : KeySpec)
    (index : Nat) {value : Slotted → Except ReadError (Option Value)}
    (h : ∀ slotted, Ensures (fun _ => True) (value slotted)) :
    Ensures (fun _ => True) (readEntries ordinal keys view index value) := by
  refine (ensures_found ordinal index (hv.exists_eq index)).bind fun keyed ⟨_, hk⟩ => ?_
  obtain ⟨entries, hentries, -⟩ := hk.entries
  refine (Ensures.ofChecked (a := entries) ?_).bind fun listed _ => ?_
  · rw [hk.length, ok_bind, hentries]
  · refine (Ensures.mapM (Q := fun _ => True) fun entry _ => ?_).bind fun _ _ => trivial
    exact (ensures_readStored ..).bind fun key _ => (h entry.2).bind fun _ _ => trivial

/-- Reading an instance of a sound container does not fault, whether the instance is there or
not. -/
theorem Sound.ensures_read {c : Container} (hc : c.Sound) (i : Nat) :
    Ensures (fun _ => True) (c.read i) := by
  induction c generalizing i with
  | flat node args view =>
    refine (ensures_found _ _ (FlatView.Sound.answers hc |>.exists_eq i)).bind fun bytes _ => ?_
    exact (ensures_readStored ..).bind fun _ _ => trivial
  | ragged node args view =>
    obtain ⟨elements, hv⟩ := hc
    refine (ensures_found _ _ (hv.answers.exists_eq i)).bind fun bytes _ => ?_
    exact (ensures_readStored ..).bind fun _ _ => trivial
  | sequence label args view element ih =>
    obtain ⟨hv, -, helement⟩ := hc
    refine (ensures_found _ _ (hv.answers.exists_eq i)).bind fun range _ => ?_
    exact (Ensures.mapM fun j _ => ih helement j).bind fun _ _ => trivial
  | set label keys args view =>
    refine ensures_readEntries (KeyedView.Sound.answers hc) _ _ _ fun slotted => ?_
    cases slotted with
    | present => trivial
    | value index => exact fun fault he => by cases he
  | map label keys args view value ih =>
    obtain ⟨hv, -, hvalue⟩ := hc
    refine ensures_readEntries hv.answers _ _ _ fun slotted => ?_
    cases slotted with
    | present => exact fun fault he => by cases he
    | value index => exact (ih hvalue index).bind fun _ _ => trivial
  | pair label args instances first second ih₁ ih₂ =>
    obtain ⟨-, hfirst, hsecond⟩ := hc
    exact (ih₁ hfirst i).bind fun _ _ => (ih₂ hsecond i).bind fun _ _ => trivial

/-! ## What a container does for its readers -/

def nodes : Container → List Container
  | c@(flat ..) | c@(ragged ..) | c@(set ..) => [c]
  | c@(sequence _ _ _ element) => c :: element.nodes
  | c@(map _ _ _ _ value) => c :: value.nodes
  | c@(pair _ _ _ first second) => c :: (first.nodes ++ second.nodes)

def Answers : Container → Prop
  | flat _ _ view => view.Answers
  | ragged _ _ view => view.Answers
  | sequence _ _ view _ => view.Answers
  | set _ _ _ view | map _ _ _ view _ => view.Answers
  | pair .. => True

/-- Every index that the section hands down is one of an instance of the child. The entries of a
map do so if the section says that it is one. -/
def HandsDown : Container → Prop
  | sequence _ _ view element =>
    ∀ i start stop, view.range i = .ok (some (start, stop)) →
      ∀ j, start ≤ j → j < stop → j < element.instances
  | map _ _ _ view value =>
    view.set = false → ∀ i keyed, view.instance? i = .ok (some keyed) →
      (∀ key slotted, keyed.get key = .ok (some slotted) →
        ∃ index, slotted = .value index ∧ index < value.instances) ∧
      ∀ entries, keyed.entries = .ok entries → ∀ entry ∈ entries,
        ∃ index, entry.2 = .value index ∧ index < value.instances
  | pair _ _ instances first second =>
    ∀ i < instances, i < first.instances ∧ i < second.instances
  | flat .. | ragged .. | set .. => True

theorem Sound.of_mem_nodes {c : Container} (hc : c.Sound) {d : Container} (hd : d ∈ c.nodes) :
    d.Sound := by
  induction c with
  | flat | ragged | set =>
    obtain rfl := List.mem_singleton.1 hd
    exact hc
  | sequence label args view element ih =>
    rcases List.mem_cons.1 hd with rfl | hd
    · exact hc
    · exact ih hc.2.2 hd
  | map label keys args view value ih =>
    rcases List.mem_cons.1 hd with rfl | hd
    · exact hc
    · exact ih hc.2.2 hd
  | pair label args instances first second ih₁ ih₂ =>
    rcases List.mem_cons.1 hd with rfl | hd
    · exact hc
    · rcases List.mem_append.1 hd with hd | hd
      · exact ih₁ hc.2.1 hd
      · exact ih₂ hc.2.2 hd

theorem Sound.answers {c : Container} (hc : c.Sound) : c.Answers := by
  cases c with
  | flat => exact FlatView.Sound.answers hc
  | ragged =>
    obtain ⟨elements, hv⟩ := hc
    exact hv.answers
  | sequence => exact ShapeView.Sound.answers hc.1
  | set => exact KeyedView.Sound.answers hc
  | map => exact KeyedView.Sound.answers hc.1
  | pair => trivial

/-- An instance of a keyed view that is no set leads to entries of the view only. -/
theorem index_lt_total {view : KeyedView} (hv : view.Answers) (hset : view.set = false) {i : Nat}
    {keyed : KeyedInstance} (hi : view.instance? i = .ok (some keyed)) :
    (∀ key slotted, keyed.get key = .ok (some slotted) →
        ∃ index, slotted = .value index ∧ index < view.total) ∧
      ∀ entries, keyed.entries = .ok entries → ∀ entry ∈ entries,
        ∃ index, entry.2 = .value index ∧ index < view.total := by
  obtain ⟨found, hfound, hp⟩ := hv.exists_eq i
  obtain rfl : some keyed = found := Except.ok.inj (hi.symm.trans hfound)
  obtain ⟨rfl, hk⟩ := hp keyed rfl
  have hslotted (entry : Nat) : keyed.view.slotted entry = .value entry := by
    simp [KeyedView.slotted, hset]
  have hstop := hk.bounds.2
  refine ⟨fun key slotted hget => ?_, fun entries hentries entry hm => ?_⟩
  · obtain ⟨found, hfound, hin⟩ := hk.get key
    obtain rfl : some slotted = found := Except.ok.inj (hget.symm.trans hfound)
    obtain ⟨e, -, hlt, -, rfl⟩ := hin slotted rfl
    exact ⟨e, hslotted e, hlt.trans_le hstop⟩
  · obtain ⟨listed, hlisted, hrel⟩ := hk.entries
    obtain rfl : entries = listed := Except.ok.inj (hentries.symm.trans hlisted)
    obtain ⟨e, he, -, hvalue⟩ := exists_of_mem_right hrel hm
    rw [List.mem_range'_1] at he
    exact ⟨e, hvalue.trans (hslotted e), by omega⟩

theorem Sound.handsDown {c : Container} (hc : c.Sound) : c.HandsDown := by
  cases c with
  | flat | ragged | set => trivial
  | sequence label args view element =>
    obtain ⟨hv, hcount, -⟩ := hc
    intro i start stop hrange j _ hj
    obtain ⟨found, hfound, hp⟩ := hv.answers.exists_eq i
    obtain rfl : some (start, stop) = found := Except.ok.inj (hrange.symm.trans hfound)
    obtain ⟨-, hstop⟩ := hp _ rfl
    rw [hcount]
    exact hj.trans_le hstop
  | map label keys args view value =>
    obtain ⟨hv, hcount, -⟩ := hc
    intro hset i keyed hi
    rw [hcount hset]
    exact index_lt_total hv.answers hset hi
  | pair label args instances first second =>
    obtain ⟨⟨hfirst, hsecond⟩, -⟩ := hc
    intro i hi
    exact ⟨hfirst ▸ hi, hsecond ▸ hi⟩

end Container

/-! ## Archives -/

theorem Header.ensures_read (bytes : Bytes) : Ensures (fun _ => True) (Header.read bytes) := by
  rw [Header.read]
  split
  · exact fun fault he => by cases he
  · refine Ensures.bind (P := fun _ => True) ?_ fun _ _ => trivial
    refine (Take.Ensures.number 4).bind (Q := fun _ => True) (fun found _ => ?_) _
    split
    · exact .throw fun fault he => by cases he
    · refine (Take.Ensures.number 4).bind fun _ _ => (Take.Ensures.number 4).bind fun length _ => ?_
      intro c
      rw [Take.bind_apply, Take.get_apply]
      refine (Take.Ensures.bytes length).bind (Q := fun _ => True) (fun format _ => ?_) c
      split
      · exact fun _ => trivial
      · exact .throw fun fault he => by cases he

namespace Archive

/-- Whatever is asked of the archive, no access faults. -/
structure Safe (a : Archive) : Prop where
  answers : ∀ c ∈ a.root.nodes, c.Answers
  handsDown : ∀ c ∈ a.root.nodes, c.HandsDown
  read : ∀ i, Faultless (a.read i)
  readText : ∀ i, Faultless (a.readText i)
  lookupIn : ∀ i keyText, Faultless (a.lookupIn i keyText)
  lookup : ∀ keyText, Faultless (a.lookup keyText)

theorem ensures_checkInstance (a : Archive) (i : Nat) :
    Ensures (fun _ => True) (a.checkInstance i) := by
  rw [checkInstance]
  split
  · trivial
  · exact fun fault he => by cases he

theorem ensures_find {view : KeyedView} (hv : view.Answers) (i : Nat) (key : Bytes) :
    Ensures (fun _ => True) (find view i key) := by
  obtain ⟨found, hfound, hp⟩ := hv.exists_eq i
  rw [find, hfound, ok_bind]
  cases found with
  | none => trivial
  | some keyed =>
    obtain ⟨slotted, hget, -⟩ := (hp keyed rfl).2.get key
    simp only [hget]
    trivial

theorem ensures_read {a : Archive} (h : a.root.Sound) (i : Nat) :
    Ensures (fun _ => True) (a.read i) :=
  (a.ensures_checkInstance i).bind fun _ _ => h.ensures_read i

theorem ensures_lookupIn {a : Archive} (h : a.root.Sound) (i : Nat) (keyText : Bytes) :
    Ensures (fun _ => True) (a.lookupIn i keyText) := by
  rw [lookupIn]
  split
  next hroot =>
    rw [hroot] at h
    refine (a.ensures_checkInstance i).bind fun _ _ => (Ensures.ofDecode _).bind fun key _ => ?_
    refine (ensures_find (KeyedView.Sound.answers h) i key.1).bind fun slotted _ => ?_
    split
    · trivial
    · trivial
    · exact fun fault he => by cases he
  next hroot =>
    rw [hroot] at h
    refine (a.ensures_checkInstance i).bind fun _ _ => (Ensures.ofDecode _).bind fun key _ => ?_
    refine (ensures_find (KeyedView.Sound.answers h.1) i key.1).bind fun slotted _ => ?_
    split
    · trivial
    · exact fun fault he => by cases he
    · exact (h.2.2.ensures_read _).bind fun _ _ => (Ensures.ofDecode _).map
  · exact fun fault he => by cases he

theorem safe_of_sound {a : Archive} (h : a.root.Sound) : a.Safe where
  answers c hc := (h.of_mem_nodes hc).answers
  handsDown c hc := (h.of_mem_nodes hc).handsDown
  read i := (ensures_iff.1 (ensures_read h i)).1
  readText i := by
    have htext : Ensures (fun _ => True) (a.readText i) :=
      (ensures_read h i).bind fun _ _ => Ensures.ofDecode _
    exact (ensures_iff.1 htext).1
  lookupIn i keyText := (ensures_iff.1 (ensures_lookupIn h i keyText)).1
  lookup keyText := by
    rw [lookup]
    split
    · split
      · exact fun fault he => by cases he
      · exact (ensures_iff.1 (ensures_lookupIn h 0 keyText)).1
    · split
      · exact fun fault he => by cases he
      · exact (ensures_iff.1 (ensures_lookupIn h 0 keyText)).1
    · exact fun fault he => by cases he

theorem ensures_open (schema : Schema) (bytes : Bytes) :
    Ensures (fun archive => archive.root.Sound) (Archive.open schema bytes) := by
  refine (Header.ensures_read bytes).bind fun ⟨format, position⟩ _ => ?_
  dsimp only
  split
  · exact fun fault he => by cases he
  · exact (Container.ensures_open schema _).bind fun root hroot => hroot

/-- Whatever the bytes are, opening them does not fault, and neither does any query of an archive
that is opened from them. -/
theorem open_safe (schema : Schema) (bytes : Bytes) :
    Faultless (Archive.open schema bytes) ∧
      ∀ archive, Archive.open schema bytes = .ok archive → archive.Safe := by
  obtain ⟨hfault, hsound⟩ := ensures_iff.1 (ensures_open schema bytes)
  exact ⟨hfault, fun archive ha => safe_of_sound (hsound archive ha)⟩

def unrulySample : Schema :=
  .map ⟨0, "T(c),(l);"⟩ ⟨⟨⟨1, "c"⟩, .primitive .char⟩, [0x2c], true, []⟩
    (.flat ⟨⟨2, "l"⟩, .primitive .i32⟩) [0x3b]

theorem parse_unrulySample : parse "T(c),(l);" = .ok unrulySample := by decide +kernel

/-- A file that no build writes: its map says that it is a set, has keys out of order, and has no
values behind them. -/
def unrulyFile : Bytes :=
  Header.write "T(c),(l);" ++
    (Section.write .trie 0 []
        (Bytes.ofNat 1 1 ++ (Bytes.ofNat 8 1 ++ (Section.numbers [0, 2] ++
          (Section.numbers [0, 1, 2] ++ [0x62, 0x61])))) ++
      Section.write .flat 2 [] (Section.flatBody 4 []))

theorem instances_unrulyFile :
    (Archive.open unrulySample unrulyFile).map instances = .ok 1 := by decide +kernel

theorem open_unruly_safe :
    parse "T(c),(l);" = .ok unrulySample ∧
      ∃ archive, Archive.open unrulySample unrulyFile = .ok archive ∧ archive.instances = 1 ∧
        archive.Safe := by
  obtain ⟨archive, ha, hi⟩ := map_eq_ok.1 instances_unrulyFile
  exact ⟨parse_unrulySample, archive, ha, hi, (open_safe unrulySample unrulyFile).2 archive ha⟩

end Archive

end RecordStore
