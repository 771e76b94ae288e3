import RecordStore.Proofs.Openers
import RecordStore.Proofs.ParsedSchemas

/-!
# A build writes the rows of its input

Building a node writes the sections of the rows of its text, however the areas are opened, or
stops where there is no row for a staged text. No two areas of a build that are open at once have
one name, so none is disturbed by what is built below.

## Main definitions

* `Gives` — what a build of a node gives, by the rows of its text.
* `WritesRows` — whether a build of a node gives the rows of every text.

## Main statements

* `Opener.gives_buildNode` — a build writes the rows of its text, if its areas can be opened.
* `gives_buildNode` — a build in memory or on disk writes the rows of its text.
-/

namespace RecordStore

open Directory (Untouched)

/-- What a build of a node gives whose text has the given rows: their number, with their sections
behind the output. Where there are none, it stops behind what was written until then. -/
def Gives (n : Nat) (s : Schema) (p : Progress) (result : EStateM.Result BuildError Progress Nat) :
    Except Halt (List Value × Nat) → Prop
  | .ok (rows, skipped) =>
    ∃ d, result = .ok rows.length
        ⟨p.output.appendList (s.sections rows), p.skipped + skipped, d⟩ ∧
      Untouched n (n + s.size) p.directory d
  | .error halt => ∃ skipped d,
    result = .error halt.error ⟨p.output.appendList halt.output, skipped, d⟩

/-- Whether a build of a node that is numbered from a number on writes the rows of its text, if
the areas of its nodes can be opened. -/
def WritesRows (opener : Opener) (n : Nat) (s : Schema) : Prop :=
  ∀ outer input p, opener.Ready n (n + s.size) p.directory →
    Gives n s p (opener.buildNode s outer input p)
      (s.outcome outer (Records.splitOptional outer input))

theorem appendList_appendList (output : Array UInt8) (front back : Bytes) :
    (output.appendList front).appendList back = output.appendList (front ++ back) :=
  Array.ext' (by simp)

/-- A level stops where its child does, or if the child has not a row for each text, and else goes
on behind the sections of the child. -/
theorem Gives.of_child {n m : Nat} {s child : Schema} {p q : Progress}
    {run result : EStateM.Result BuildError Progress Nat} {front : Bytes} {expected : Nat}
    {rows : Except Halt (List Value × Nat)}
    {next : List Value × Nat → Except Halt (List Value × Nat)}
    (h : Gives m child q result rows) (hq : q.output = p.output.appendList front)
    (herror : ∀ cause q', result = .error cause q' → run = .error cause q')
    (hnext : ∀ items skipped d,
      result = .ok items.length
        ⟨q.output.appendList (child.sections items), q.skipped + skipped, d⟩ →
      Untouched m (m + child.size) q.directory d →
      (expected ≠ items.length → ∃ skipped' d',
        run = .error (.instanceMismatch child.ordinal expected items.length)
          ⟨q.output.appendList (child.sections items), skipped', d'⟩) ∧
      (expected = items.length → Gives n s p run (next (items, skipped)))) :
    Gives n s p run (childRows front child expected rows >>= next) := by
  cases rows with
  | error halt =>
    obtain ⟨skipped, d, he⟩ := h
    refine ⟨skipped, d, (herror _ _ he).trans ?_⟩
    rw [hq, appendList_appendList]
    rfl
  | ok rows =>
    obtain ⟨items, skipped⟩ := rows
    obtain ⟨d, hrun, huntouched⟩ := h
    obtain ⟨hne, heq⟩ := hnext items skipped d hrun huntouched
    rw [childRows]
    by_cases hlen : expected = items.length
    · rw [if_pos hlen]
      exact heq hlen
    · rw [if_neg hlen]
      obtain ⟨skipped', d', he⟩ := hne hlen
      refine ⟨skipped', d', he.trans ?_⟩
      rw [hq, appendList_appendList]
      rfl

/-! ## Flat nodes -/

namespace FlatNode

theorem stream_eq (node : FlatNode) (c : Cursor) :
    node.stream c = .ok ((node.streamed c).map FlatValue.stored) := by
  fun_induction streamed node c with
  | case1 c hn =>
    rw [stream, dif_pos hn]
    rfl
  | case2 c hn cause c' h =>
    rw [stream, dif_neg hn]
    split
    · rfl
    · rename_i hd
      rw [h] at hd
      cases hd
  | case3 c hn value c' h ih =>
    rw [stream, dif_neg hn]
    split
    · rename_i hd
      rw [h] at hd
      cases hd
    · rename_i hd
      rw [h, EStateM.Result.ok.injEq] at hd
      obtain ⟨rfl, rfl⟩ := hd
      rw [write_eq (holds_of_decodeNext h), ih]
      rfl

theorem stored?_eq (node : FlatNode) (chunk : Bytes) :
    node.stored? chunk = (node.decode chunk).toOption.map fun value => .ok value.stored := by
  unfold stored?
  cases h : node.decode chunk with
  | error => rfl
  | ok value => exact congrArg some (write_eq (holds_of_decode h))

theorem gives_build (node : FlatNode) (outer : Option Bytes) (input : Bytes) (n : Nat)
    (p : Progress) :
    Gives n (.flat node) p (node.build outer input p)
      (.ok (node.rows outer (Records.splitOptional outer input))) := by
  have hstored : (Records.splitOptional outer input).map node.stored? =
      (node.decoded (Records.splitOptional outer input)).map
        (Option.map fun value => .ok value.stored) := by
    rw [decoded, List.map_map]
    exact List.map_congr_left fun chunk _ => node.stored?_eq chunk
  have hmissing : missing ((Records.splitOptional outer input).map node.stored?) =
      missing (node.decoded (Records.splitOptional outer input)) := by
    rw [hstored, missing_map]
  have hkept : (kept ((Records.splitOptional outer input).map node.stored?)).mapM id =
      .ok ((kept (node.decoded (Records.splitOptional outer input))).map FlatValue.stored) := by
    rw [hstored, kept_map, List.mapM_map]
    exact mapM_eq_ok fun _ _ => rfl
  obtain ⟨label, layout⟩ := node
  refine ⟨p.directory, ?_, .refl n _ _⟩
  cases layout with
  | structs shape =>
    simp only [build, Build.bind_apply, Build.skip_apply, hmissing, hkept, Build.emit_apply,
      Build.pure_apply]
    simp [Schema.sections, FlatNode.section, Function.comp_def, Value.stored]
  | _ =>
    cases outer with
    | none =>
      simp only [build, Build.bind_apply, stream_eq, Build.emit_apply, Build.pure_apply]
      simp [Schema.sections, FlatNode.section, Function.comp_def, Value.stored,
        Records.splitOptional]
    | some delim =>
      simp only [build, Build.bind_apply, Build.skip_apply, hmissing, hkept, Build.emit_apply,
        Build.pure_apply]
      simp [Schema.sections, FlatNode.section, Function.comp_def, Value.stored]

end FlatNode

/-! ## Sequences -/

theorem sections_sequence {label : Label} {element : Schema} {sep : Bytes} {args : List String}
    {lengths : List Nat} {items : List Value} (h : lengths.sum = items.length) :
    (Schema.sequence label element sep args).sections ((lengths.splitLengths items).map .seq) =
      Section.write .shape label.ordinal args (Section.shapeBody lengths) ++
        element.sections items := by
  have hlengths : ((lengths.splitLengths items).map Value.seq).map (fun row => row.items.length) =
      lengths := by
    rw [List.map_map]
    exact List.map_splitLengths_length items lengths h.le
  have hitems : ((lengths.splitLengths items).map Value.seq).flatMap Value.items = items := by
    rw [List.flatMap_map]
    exact List.flatMap_id'.trans (List.flatten_splitLengths items lengths h.ge)
  rw [Schema.sections, hlengths, hitems]

theorem gives_sequence {opener : Opener} (hl : opener.Local) {label : Label} {element : Schema}
    {sep : Bytes} {args : List String} (h : WritesRows opener (label.ordinal + 1) element) :
    WritesRows opener label.ordinal (.sequence label element sep args) := by
  intro outer input p hready
  rw [Schema.size, ← Nat.add_assoc] at hready
  simp only [Opener.buildNode, Schema.outcome]
  generalize hinstances : ((Records.splitOptional outer input).map fun chunk =>
    (Records.split sep chunk).map (restage? element sep)) = instances
  obtain ⟨made, d₀, hopen, hname, hstages, hopened⟩ :=
    hready label.ordinal "v" le_rfl (by omega)
  obtain ⟨area, d, hrun, hkeeps, hcont⟩ := Build.foldlM_writeRecord sep
    (p := ⟨p.output, p.skipped + missing instances.flatten, d₀⟩) hstages.keeps
    (instances.map kept).flatten
  obtain ⟨hstaged, hread⟩ := Area.contents_eq hkeeps
  rw [List.flatten_nil, List.nil_append] at hstaged
  have hname' := hcont.name.trans hname
  have hbefore : Untouched label.ordinal (label.ordinal + 1) p.directory (area.contents d).2.2 :=
    (Untouched.of_agree hopened rfl).trans <| (Untouched.of_agree hcont.agree hname).trans <|
      .of_agree hread.agree hname'
  simp only [Build.bind_apply, Build.skip_apply, hopen, hrun, Build.emit_apply,
    Build.contents_apply, hstaged]
  have hchild := h (some sep) (staged sep (instances.map kept).flatten)
    { output := p.output.appendList (Section.write .shape label.ordinal args
        (Section.shapeBody ((instances.map kept).map List.length)))
      skipped := p.skipped + missing instances.flatten
      directory := (area.contents d).2.2 }
    ((hready.mono (Nat.le_succ _) le_rfl).of_untouched hl hbefore (.inl le_rfl))
  refine hchild.of_child rfl (fun cause q' he => by rw [he])
    fun items skipped d' hrun huntouched => ?_
  simp only [hrun, Build.closeArea_apply, Build.checkInstances_apply]
  refine ⟨fun hne => ⟨_, _, by rw [if_neg hne]⟩, fun hlen => ?_⟩
  rw [if_pos hlen]
  have hsum : ((instances.map kept).map List.length).sum = items.length := by
    rw [← hlen, List.length_flatten]
  have hcount : ((((instances.map kept).map List.length).splitLengths items).map
      Value.seq).length = instances.length := by simp
  have hclose : Untouched label.ordinal (label.ordinal + 1) d' ((area.contents d).2.1.close d') :=
    .of_agree (Area.agree_close _ d') (hread.name.trans hname')
  refine ⟨(area.contents d).2.1.close d', ?_, ?_⟩
  · rw [sections_sequence hsum, ← appendList_appendList, ← Nat.add_assoc, hcount]
    rfl
  · rw [Schema.size, ← Nat.add_assoc]
    exact (hbefore.mono le_rfl (by omega)).trans <|
      (huntouched.mono (Nat.le_succ _) le_rfl).trans (hclose.mono le_rfl (by omega))

/-! ## Sets and maps -/

theorem keyBytes?_eq (keys : KeySpec) (text : Bytes) :
    keyBytes? keys text = (keys.key? text).map (·.1) := by
  unfold keyBytes? KeySpec.key?
  cases keys.decodeKey text <;> rfl

theorem storedKeys_setRow (keys : KeySpec) {instances : List (List (Bytes × FlatValue))}
    (hk : ∀ entries ∈ instances, ∀ entry ∈ entries, entry.1 = entry.2.stored) :
    keys.storedKeys true (instances.map fun entries => setRow (keys.arranged entries)) =
      ⟨true, keys.ordered, instances.map fun entries => (keys.arranged entries).map (·.1)⟩ := by
  rw [KeySpec.storedKeys, List.map_map]
  congr 1
  apply List.map_congr_left
  intro entries hm
  simp only [Function.comp_apply, setRow, Value.entries, List.map_map]
  exact List.map_congr_left fun entry he => (hk entries hm _ (KeySpec.mem_of_mem_arranged he)).symm

theorem gives_set (opener : Opener) (label : Label) (keys : KeySpec) :
    WritesRows opener label.ordinal (.set label keys) := by
  intro outer input p _
  simp only [Opener.buildNode, Schema.outcome]
  generalize hinstances : ((Records.splitOptional outer input).map fun chunk =>
    (Records.split keys.sep chunk).map keys.key?) = instances
  have hbytes : ((Records.splitOptional outer input).map fun chunk =>
      (Records.split keys.sep chunk).map (keyBytes? keys)) =
        instances.map (List.map (Option.map (·.1))) := by
    rw [← hinstances, List.map_map]
    apply List.map_congr_left
    intro chunk _
    rw [Function.comp_apply, List.map_map]
    exact List.map_congr_left fun text _ => keyBytes?_eq keys text
  have hmissing : missing (instances.map (List.map (Option.map (·.1)))).flatten =
      missing instances.flatten := by
    rw [← List.map_flatten, missing_map]
  have hkept : (instances.map (List.map (Option.map (·.1)))).map kept =
      (instances.map kept).map (List.map (·.1)) := by
    rw [List.map_map, List.map_map]
    exact List.map_congr_left fun parts _ => kept_map _ parts
  have hkeys : ∀ entries ∈ instances.map kept, ∀ entry ∈ entries,
      entry.1 = entry.2.stored := by
    intro entries hm entry he
    obtain ⟨parts, hp, rfl⟩ := List.mem_map.1 hm
    rw [← hinstances] at hp
    obtain ⟨chunk, -, rfl⟩ := List.mem_map.1 hp
    obtain ⟨text, -, hkey⟩ := List.mem_map.1 (mem_kept.1 he)
    exact (KeySpec.key?_eq_some hkey).2
  have hstored := storedKeys_setRow keys hkeys
  simp only [Build.bind_apply, Build.skip_apply, Build.emit_apply, hbytes, hmissing, hkept,
    collectSet_eq]
  refine ⟨p.directory, ?_, .refl _ _ _⟩
  have hpresent : (((instances.map kept).map (List.map (·.1))).map fun keys =>
      keys.map fun key => (key, Slot.presence)).map (fun entries =>
        (keys.arranged entries).map (·.1)) =
      (instances.map kept).map fun entries => (keys.arranged entries).map (·.1) := by
    rw [List.map_map, List.map_map]
    apply List.map_congr_left
    intro entries _
    simp only [Function.comp_apply, List.map_map]
    exact keys.map_fst_arranged (fun _ => Slot.presence) entries
  rw [(finish_ofInstances keys label.ordinal true _).2, hpresent, ← hstored, List.map_map]
  simp [Schema.sections, Function.comp_def, Build.pure_apply]

theorem payloads_mapRow {entries : List (Bytes × FlatValue × Bytes)} {items : List Value}
    (h : items.length = entries.length) : Schema.payloads (mapRow entries items) = items := by
  induction entries generalizing items with
  | nil =>
    obtain rfl : items = [] := by simpa using h
    rfl
  | cons entry entries ih =>
    cases items with
    | nil => simp at h
    | cons item items => exact congrArg (item :: ·) (ih (by simpa using h))

theorem rows_mapRow {stored : List (List (Bytes × FlatValue × Bytes))} {groups : List (List Value)}
    (hk : ∀ entries ∈ stored, ∀ entry ∈ entries, entry.1 = entry.2.1.stored)
    (hl : groups.map List.length = stored.map List.length) :
    ((List.zipWith mapRow stored groups).map fun row => row.entries.map (·.1.stored)) =
        stored.map (List.map (·.1)) ∧
      (List.zipWith mapRow stored groups).flatMap Schema.payloads = groups.flatten := by
  induction stored generalizing groups with
  | nil =>
    obtain rfl : groups = [] := by simpa using hl
    exact ⟨rfl, rfl⟩
  | cons entries stored ih =>
    cases groups with
    | nil => simp at hl
    | cons group groups =>
      rw [List.map_cons, List.map_cons, List.cons.injEq] at hl
      obtain ⟨hkeys, hpayloads⟩ := ih (fun entries hm => hk entries (by simp [hm])) hl.2
      rw [List.zipWith_cons_cons, List.map_cons, hkeys, List.flatMap_cons, hpayloads,
        List.map_cons, List.flatten_cons]
      refine ⟨congrArg (· :: _) ?_, congrArg (· ++ _) ?_⟩
      · simp only [mapRow, Value.entries, List.map_zipWith]
        apply List.ext_getElem (by simp [hl.1])
        intro i hi _
        simpa [Value.stored] using
          (hk entries (by simp) _ (List.getElem_mem (by simp at hi; omega))).symm
      · exact payloads_mapRow hl.1

/-- The sections of the rows of a map whose payloads come in groups. -/
theorem sections_map {label : Label} {keys : KeySpec} {value : Schema} {sep : Bytes}
    {stored : List (List (Bytes × FlatValue × Bytes))} {items : List Value}
    (hk : ∀ entries ∈ stored, ∀ entry ∈ entries, entry.1 = entry.2.1.stored)
    (h : (stored.map List.length).sum = items.length) :
    (Schema.map label keys value sep).sections
        (List.zipWith mapRow stored ((stored.map List.length).splitLengths items)) =
      Section.write (Container.keyedTag keys) label.ordinal keys.args
          (StoredKeys.body ⟨false, keys.ordered, stored.map (List.map (·.1))⟩) ++
        value.sections items := by
  obtain ⟨hkeys, hpayloads⟩ := rows_mapRow hk (List.map_splitLengths_length items _ h.le)
  rw [Schema.sections, KeySpec.storedKeys, hkeys, hpayloads, List.flatten_splitLengths _ _ h.ge]

theorem restageKeyed?_eq (keys : KeySpec) (value : Schema) (sep : Bytes) (record : Records.Entry) :
    restageKeyed? keys value sep record =
      (entryOf? keys value sep record).map fun entry => (entry.1, entry.2.2) := by
  cases record with
  | broken => rfl
  | cut keyText valueText =>
    simp only [restageKeyed?, entryOf?, keyBytes?_eq, Option.bind_eq_bind, Option.pure_def]
    cases keys.key? keyText <;> cases restage? value sep valueText <;> rfl

/-- The entries of the instances of a map, as they are collected. -/
theorem restaged_entries (keys : KeySpec) (value : Schema) (sep : Bytes) (chunks : List Bytes) :
    let pairs := chunks.map fun chunk =>
      (Records.mapEntries keys.sep sep chunk).map (restageKeyed? keys value sep)
    let parts := chunks.map fun chunk =>
      (Records.mapEntries keys.sep sep chunk).map (entryOf? keys value sep)
    let stored := parts.map fun parts => keys.arranged (kept parts)
    missing pairs.flatten = missing parts.flatten ∧
      (pairs.map kept).map keys.arranged =
        stored.map (List.map fun entry => (entry.1, entry.2.2)) ∧
      ∀ entries ∈ stored, ∀ entry ∈ entries, entry.1 = entry.2.1.stored := by
  intro pairs parts stored
  have hpairs : pairs = parts.map (List.map (Option.map fun entry => (entry.1, entry.2.2))) := by
    simp only [pairs, parts, List.map_map]
    apply List.map_congr_left
    intro chunk _
    rw [Function.comp_apply, List.map_map]
    exact List.map_congr_left fun record _ => restageKeyed?_eq keys value sep record
  refine ⟨?_, ?_, ?_⟩
  · rw [hpairs, ← List.map_flatten, missing_map]
  · simp only [hpairs, stored, List.map_map]
    apply List.map_congr_left
    intro parts _
    simp only [Function.comp_apply, kept_map]
    exact keys.arranged_map (fun payload : FlatValue × Bytes => payload.2) (kept parts)
  · intro entries hm entry he
    obtain ⟨records, hp, rfl⟩ := List.mem_map.1 hm
    obtain ⟨chunk, -, rfl⟩ := List.mem_map.1 hp
    obtain ⟨record, -, hrecord⟩ := List.mem_map.1 (mem_kept.1 (KeySpec.mem_of_mem_arranged he))
    exact (key_of_entryOf? hrecord).2

theorem gives_map {opener : Opener} (hl : opener.Local) {label : Label} {keys : KeySpec}
    {value : Schema} {sep : Bytes} (h : WritesRows opener (label.ordinal + 2) value) :
    WritesRows opener label.ordinal (.map label keys value sep) := by
  intro outer input p hready
  rw [Schema.size, ← Nat.add_assoc] at hready
  obtain ⟨hmissing, harranged, hkeys⟩ :=
    restaged_entries keys value sep (Records.splitOptional outer input)
  simp only [Opener.buildNode, Schema.outcome]
  generalize hpairs : ((Records.splitOptional outer input).map fun chunk =>
    (Records.mapEntries keys.sep sep chunk).map (restageKeyed? keys value sep)) = pairs at *
  generalize hparts : ((Records.splitOptional outer input).map fun chunk =>
    (Records.mapEntries keys.sep sep chunk).map (entryOf? keys value sep)) = parts at *
  generalize hstored : (parts.map fun parts => keys.arranged (kept parts)) = stored at *
  have hcount : pairs.length = stored.length := by
    rw [← hstored, ← hpairs, ← hparts]
    simp
  clear hpairs hparts hstored
  -- the second area is opened while the first one is open
  have hroles : Area.nameOf label.ordinal "b" ≠ Area.nameOf label.ordinal "a" := fun he =>
    absurd (Area.nameOf_inj he).2 (by decide)
  obtain ⟨made₁, d₁, hopen₁, hname₁, hstages₁, hopened₁⟩ :=
    hready label.ordinal "a" le_rfl (by omega)
  obtain ⟨history, payloads, d₂, hcollect, hstages, hcont₁, hleads⟩ := Build.collectMap_apply
    (.start label.ordinal keys.ordered false keys.args)
    (p := ⟨p.output, p.skipped + missing pairs.flatten, d₁⟩) hstages₁ (pairs.map kept)
  have hname₁' := hcont₁.name.trans hname₁
  have hagree₁ := hopened₁.trans (hname₁ ▸ hcont₁.agree)
  obtain ⟨made₂, d₃, hopen₂, hname₂, hstages₂, hopened₂⟩ :=
    (hready label.ordinal "b" le_rfl (by omega)).of_agree hl hagree₁ hroles
  obtain ⟨hbytes, horder, hlt, hentries⟩ := finish_of_leadsTo keys label.ordinal hleads
  simp only [Build.bind_apply, Build.skip_apply, hopen₁, hcollect, Build.emit_apply, hopen₂]
  generalize ((KeyedSink.start label.ordinal keys.ordered false keys.args).run
    (SinkCall.ofInstances history)).finish = built at *
  obtain ⟨drained, inOrder, d₄, hreorder, hkeeps, hdrained, hinOrder, hframe⟩ :=
    Build.reorder_apply sep (p := ⟨p.output.appendList built.bytes,
      p.skipped + missing pairs.flatten, d₃⟩)
      ⟨hstages.keeps.of_agree (hopened₂ _ (hname₁' ▸ hroles.symm)), hstages.length,
        hstages.ranges⟩
      hstages₂.keeps (by rw [hname₁', hname₂]; exact hroles.symm) hlt
  have hdrained' := hdrained.trans hname₁'
  have hinOrder' := hinOrder.trans hname₂
  have hclose := Area.agree_close drained d₄
  obtain ⟨hstaged, hread⟩ := Area.contents_eq
    (hkeeps.of_agree (hclose _ (by rw [hdrained', hinOrder']; exact hroles)))
  have hflatten := congrArg List.flatten harranged
  rw [← List.map_flatten] at hflatten
  rw [List.flatten_nil, List.nil_append, horder, hflatten, List.map_map] at hstaged
  rw [hflatten] at hentries
  have hkeyBytes := congrArg (List.map (List.map (·.1))) harranged
  simp only [List.map_map, Function.comp_def] at hkeyBytes hbytes
  rw [hkeyBytes] at hbytes
  have hframe' : Untouched label.ordinal (label.ordinal + 1) d₃ d₄ := fun name hn =>
    hframe name (fun he => hn _ "a" le_rfl (Nat.lt_succ_self _) (he.trans hname₁'))
      fun he => hn _ "b" le_rfl (Nat.lt_succ_self _) (he.trans hname₂)
  have hbefore : Untouched label.ordinal (label.ordinal + 1) p.directory
      (inOrder.contents (drained.close d₄)).2.2 :=
    (Untouched.of_agree hagree₁ rfl).trans <| (Untouched.of_agree hopened₂ rfl).trans <|
      hframe'.trans <| (Untouched.of_agree hclose hdrained').trans <|
        .of_agree hread.agree hinOrder'
  simp only [hreorder, Build.closeArea_apply, Build.contents_apply, hstaged]
  have hchild := h (some sep) (staged sep (stored.flatten.map fun entry => entry.2.2))
    { output := p.output.appendList built.bytes
      skipped := p.skipped + missing pairs.flatten
      directory := (inOrder.contents (drained.close d₄)).2.2 }
    ((hready.mono (by omega) le_rfl).of_untouched hl hbefore (.inl (Nat.le_succ _)))
  simp only [Function.comp_def]
  refine hchild.of_child (by rw [hbytes]) (fun cause q' he => by rw [he])
    fun items skipped d₅ hrun huntouched => ?_
  simp only [hrun, Build.checkInstances_apply, hentries, List.length_map]
  refine ⟨fun hne => ⟨_, _, by rw [if_neg hne]⟩, fun hlen => ?_⟩
  rw [if_pos hlen]
  rw [List.length_flatten] at hlen
  refine ⟨(inOrder.contents (drained.close d₄)).2.1.close d₅, ?_, ?_⟩
  · rw [sections_map hkeys hlen, ← appendList_appendList, ← Nat.add_assoc, hcount, ← hmissing,
      hbytes]
    simp [Build.pure_apply]
  · have hclose' : Untouched label.ordinal (label.ordinal + 1) d₅
        ((inOrder.contents (drained.close d₄)).2.1.close d₅) :=
      .of_agree (Area.agree_close _ d₅) (hread.name.trans hinOrder')
    rw [Schema.size, ← Nat.add_assoc]
    exact (hbefore.mono le_rfl (by omega)).trans <|
      (huntouched.mono (by omega) le_rfl).trans (hclose'.mono le_rfl (by omega))

/-! ## Pairs -/

theorem sections_pair {label : Label} {first second : Schema} {sep : Bytes}
    {lefts rights : List Value} (h : lefts.length = rights.length) :
    (Schema.pair label first second sep).sections (List.zipWith .pair lefts rights) =
      Section.write .pair label.ordinal [] (Section.pairBody lefts.length) ++
        (first.sections lefts ++ second.sections rights) := by
  have hfirst : (List.zipWith Value.pair lefts rights).map Value.first = lefts :=
    List.ext_getElem (by simp [h]) fun i _ _ => by simp [Value.first]
  have hsecond : (List.zipWith Value.pair lefts rights).map Value.second = rights :=
    List.ext_getElem (by simp [h]) fun i _ _ => by simp [Value.second]
  rw [Schema.sections, hfirst, hsecond, List.length_zipWith, ← h, Nat.min_self]

theorem gives_pair {opener : Opener} (hl : opener.Local) {label : Label} {first second : Schema}
    {sep : Bytes} (h₁ : WritesRows opener (label.ordinal + 1) first)
    (h₂ : WritesRows opener (label.ordinal + 1 + first.size) second) :
    WritesRows opener label.ordinal (.pair label first second sep) := by
  intro outer input p hready
  rw [Schema.size, ← Nat.add_assoc, ← Nat.add_assoc] at hready
  simp only [Opener.buildNode, Schema.outcome]
  generalize (Records.splitOptional outer input).map (restagePair? first second sep outer) = sides
  -- both areas are open while the first side is built
  have hroles : Area.nameOf label.ordinal "2" ≠ Area.nameOf label.ordinal "1" := fun he =>
    absurd (Area.nameOf_inj he).2 (by decide)
  obtain ⟨made₁, d₁, hopen₁, hname₁, hstages₁, hopened₁⟩ :=
    hready label.ordinal "1" le_rfl (by omega)
  obtain ⟨made₂, d₂, hopen₂, hname₂, hstages₂, hopened₂⟩ :=
    (hready label.ordinal "2" le_rfl (by omega)).of_agree hl hopened₁ hroles
  obtain ⟨firsts, d₃, hrun₁, hkeeps₁, hcont₁⟩ := Build.foldlM_writeRecord sep
    (p := ⟨p.output, p.skipped + missing sides, d₂⟩)
    (hstages₁.keeps.of_agree (hopened₂ _ (by rw [hname₁]; exact hroles.symm)))
    ((kept sides).map (·.1))
  obtain ⟨seconds, d₄, hrun₂, hkeeps₂, hcont₂⟩ := Build.foldlM_writeRecord (outer.getD [])
    (p := ⟨p.output, p.skipped + missing sides, d₃⟩)
    (hstages₂.keeps.of_agree (hcont₁.agree _ (by rwa [hname₁, hname₂])))
    ((kept sides).map (·.2))
  have hfirsts := hcont₁.name.trans hname₁
  have hseconds := hcont₂.name.trans hname₂
  obtain ⟨hstaged₁, hread₁⟩ := Area.contents_eq (hkeeps₁.of_agree (hcont₂.agree _ (by
    rw [hfirsts, hname₂]
    exact hroles.symm)))
  have hbefore : Untouched label.ordinal (label.ordinal + 1) p.directory
      (firsts.contents d₄).2.2 :=
    (Untouched.of_agree hopened₁ rfl).trans <| (Untouched.of_agree hopened₂ rfl).trans <|
      (Untouched.of_agree hcont₁.agree hname₁).trans <|
      (Untouched.of_agree hcont₂.agree hname₂).trans <| .of_agree hread₁.agree hfirsts
  simp only [Build.bind_apply, Build.skip_apply, hopen₁, hopen₂, hrun₁, hrun₂, Build.emit_apply,
    Build.contents_apply, hstaged₁, List.flatten_nil, List.nil_append]
  have hchild₁ := h₁ (some sep) (staged sep ((kept sides).map (·.1)))
    { output := p.output.appendList
        (Section.write .pair label.ordinal [] (Section.pairBody (kept sides).length))
      skipped := p.skipped + missing sides
      directory := (firsts.contents d₄).2.2 }
    ((hready.mono (Nat.le_succ _) (Nat.le_add_right _ _)).of_untouched hl hbefore (.inl le_rfl))
  refine hchild₁.of_child rfl (fun cause q' he => by rw [he])
    fun lefts skipped d₅ hrun₃ huntouched₁ => ?_
  simp only [hrun₃, Build.checkInstances_apply]
  refine ⟨fun hne => ⟨_, _, by rw [if_neg hne]⟩, fun hleft => ?_⟩
  rw [if_pos hleft]
  have hkeeps₂ : seconds.Keeps d₅ ([] ++ staged (outer.getD []) ((kept sides).map (·.2))) := by
    refine (hkeeps₂.of_agree (hread₁.agree _ ?_)).of_agree ?_
    · rwa [hfirsts, hseconds]
    · rw [hseconds]
      exact huntouched₁.lookup_nameOf (.inl (Nat.lt_succ_self _)) "2"
  obtain ⟨hstaged₂, hread₂⟩ := Area.contents_eq hkeeps₂
  have hbetween : Untouched label.ordinal (label.ordinal + 1 + first.size) p.directory
      (seconds.contents d₅).2.2 :=
    (hbefore.mono le_rfl (by omega)).trans <| (huntouched₁.mono (Nat.le_succ _) le_rfl).trans <|
      (Untouched.of_agree hread₂.agree hseconds).mono le_rfl (by omega)
  simp only [hstaged₂, List.nil_append]
  generalize (if (outer.isNone && (kept sides).isEmpty) = true then some sep else outer) = delim
  have hchild₂ := h₂ delim (staged (outer.getD []) ((kept sides).map (·.2)))
    { output := (p.output.appendList
        (Section.write .pair label.ordinal [] (Section.pairBody (kept sides).length))).appendList
          (first.sections lefts)
      skipped := p.skipped + missing sides + skipped
      directory := (seconds.contents d₅).2.2 }
    ((hready.mono (by omega) le_rfl).of_untouched hl hbetween (.inl le_rfl))
  refine hchild₂.of_child (appendList_appendList _ _ _) (fun cause q' he => by rw [he])
    fun rights skipped' d₆ hrun₄ huntouched₂ => ?_
  simp only [hrun₄, Build.closeArea_apply]
  refine ⟨fun hne => ⟨_, _, by rw [if_neg hne]⟩, fun hright => ?_⟩
  rw [if_pos hright]
  have hsections := @sections_pair label first second sep lefts rights (hleft.symm.trans hright)
  refine ⟨(seconds.contents d₅).2.1.close ((firsts.contents d₄).2.1.close d₆), ?_, ?_⟩
  · rw [hsections, ← appendList_appendList, ← appendList_appendList, List.length_zipWith,
      ← hleft, ← hright, Nat.min_self, ← Nat.add_assoc, ← Nat.add_assoc]
    rfl
  · have hclose : Untouched label.ordinal (label.ordinal + 1) d₆
        ((seconds.contents d₅).2.1.close ((firsts.contents d₄).2.1.close d₆)) :=
      (Untouched.of_agree (Area.agree_close _ _) (hread₁.name.trans hfirsts)).trans <|
        .of_agree (Area.agree_close _ _) (hread₂.name.trans hseconds)
    rw [Schema.size, ← Nat.add_assoc, ← Nat.add_assoc]
    exact (hbetween.mono le_rfl (by omega)).trans <|
      (huntouched₂.mono (by omega) le_rfl).trans (hclose.mono le_rfl (by omega))

/-! ## Any node -/

/-- A build writes the rows of its text, if its areas can be opened. -/
theorem Opener.gives_buildNode {opener : Opener} (hl : opener.Local) {s : Schema} {n : Nat}
    (hn : s.NumberedFrom n) : WritesRows opener n s := by
  induction s generalizing n with
  | flat node => exact fun outer input p _ => node.gives_build outer input n p
  | sequence label element sep args ih =>
    obtain ⟨rfl, hn⟩ := hn
    exact gives_sequence hl (ih hn)
  | set label keys =>
    obtain ⟨rfl, -⟩ := hn
    exact gives_set opener label keys
  | map label keys value sep ih =>
    obtain ⟨rfl, -, hn⟩ := hn
    exact gives_map hl (ih hn)
  | pair label first second sep ih₁ ih₂ =>
    obtain ⟨rfl, hn₁, hn₂⟩ := hn
    exact gives_pair hl (ih₁ hn₁) (ih₂ hn₂)

/-- A build in memory or on disk writes the rows of its text. -/
theorem gives_buildNode (onDisk : Bool) {s : Schema} {n : Nat} (hn : s.NumberedFrom n)
    (outer : Option Bytes) (input : Bytes) (p : Progress) :
    Gives n s p (buildNode onDisk s outer input p)
      (s.outcome outer (Records.splitOptional outer input)) := by
  exact Opener.gives_buildNode (Opener.local_openArea onDisk) hn outer input p
    (Opener.ready_openArea onDisk _ _ _)

end RecordStore
