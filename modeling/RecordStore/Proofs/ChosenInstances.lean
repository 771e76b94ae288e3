import RecordStore.Command.Run
import RecordStore.Files.Tree
import RecordStore.Proofs.Outcomes

/-!
# Printing chosen instances

Archives are printed in order, each with the chosen instance or with all of its instances, up to the
first instance that cannot be read. One that an archive does not have ends the command. The
greatest index is the exception: its successor is zero, so that no instance is asked for.

## Main definitions

* `requestedInstances` — the instances that a command is to print.
* `Prints` — what is printed of instances, and how that ends.
* `ReadOptions.Opens` — the files that a command opens.
* `Yields` — steps of a command that leave a session as it is.

## Main statements

* `Archive.readText_of_instances_le` — an instance that an archive does not have.
* `printArchives_prints`, `printArchives_greatest` — what is printed of archives.
* `yields_run` — what a command prints of the files that it opens.
* `read_prints_requested` — the report of the command.
-/

namespace RecordStore

/-! ## Instances -/

/-- The instances that are asked for: the chosen one of each archive, or all of them. -/
def requestedInstances (chosen : Option UInt64) (archives : List Archive) : List (Archive × Nat) :=
  archives.flatMap fun archive =>
    match chosen with
    | some index => [(archive, index.toNat)]
    | none => (List.range archive.instances).map (archive, ·)

def AreTexts (requests : List (Archive × Nat)) (texts : List Bytes) : Prop :=
  List.Forall₂ (fun request text => request.1.readText request.2 = .ok text) requests texts

/-- What is printed of instances: all their texts, or those before the first instance that cannot
be read, with its error. -/
inductive Prints (requests : List (Archive × Nat)) : Bytes × Except ReadError Unit → Prop
  | all {texts : List Bytes} (h : AreTexts requests texts) :
    Prints requests (texts.flatten, .ok ())
  | upTo {front rest : List (Archive × Nat)} {archive : Archive} {index : Nat} {texts : List Bytes}
    {cause : ReadError} (happ : requests = front ++ (archive, index) :: rest)
    (h : AreTexts front texts) (he : archive.readText index = .error cause) :
    Prints requests (texts.flatten, .error cause)

/-- An instance that an archive does not have is out of range. -/
theorem Archive.readText_of_instances_le {a : Archive} {index : Nat} (h : a.instances ≤ index) :
    a.readText index = .error (.instanceOutOfRange index a.instances) := by
  simp [readText, read, checkInstance, Nat.not_lt.2 h]

section

variable {requests rest : List (Archive × Nat)} {texts : List Bytes} {printed more : Bytes}
  {result : Except ReadError Unit} {a : Archive} {index : Nat}

/-- Instances that can be read are instances that their archives have. -/
theorem AreTexts.lt_instances (h : AreTexts requests texts) :
    ∀ request ∈ requests, request.2 < request.1.instances := by
  induction h with
  | nil => nofun
  | cons ht _ ih =>
    refine List.forall_mem_cons.2 ⟨Nat.lt_of_not_le fun hle => ?_, ih⟩
    simp [Archive.readText_of_instances_le hle] at ht

namespace Prints

theorem lt_instances (h : Prints requests (printed, .ok ())) :
    ∀ request ∈ requests, request.2 < request.1.instances := by
  obtain ⟨htexts⟩ := h
  exact htexts.lt_instances

theorem nil : Prints [] ([], .ok ()) :=
  @all [] [] .nil

theorem of_ok {text : Bytes} (h : a.readText index = .ok text) :
    Prints [(a, index)] (text, .ok ()) := by
  rw [← List.append_nil text]
  exact @all [(a, index)] [text] (.cons h .nil)

theorem of_error {cause : ReadError} (h : a.readText index = .error cause)
    (rest : List (Archive × Nat)) : Prints ((a, index) :: rest) ([], .error cause) :=
  @upTo ((a, index) :: rest) [] rest a index [] cause rfl .nil h

/-- What follows instances that can all be read is printed behind them. -/
theorem append (h : Prints requests (printed, .ok ())) (h' : Prints rest (more, result)) :
    Prints (requests ++ rest) (printed ++ more, result) := by
  obtain ⟨h⟩ := h
  cases h' with
  | all h' =>
    rw [← List.flatten_append]
    exact .all (List.rel_append h h')
  | upTo happ h' he =>
    rw [← List.flatten_append]
    exact .upTo (by rw [happ, List.append_assoc]) (List.rel_append h h') he

/-- Nothing is printed behind an instance that cannot be read. -/
theorem append_of_error {cause : ReadError} (h : Prints requests (printed, .error cause))
    (rest : List (Archive × Nat)) : Prints (requests ++ rest) (printed, .error cause) := by
  cases h with
  | upTo happ h he => exact .upTo (by rw [happ, List.append_assoc, List.cons_append]) h he

end Prints

end

/-! ## Archives in a row -/

theorem Archive.texts_prints (a : Archive) (indices : List Nat) :
    Prints (indices.map (a, ·)) (a.texts indices) := by
  induction indices with
  | nil => exact .nil
  | cons index rest ih =>
    rw [texts, List.map_cons]
    split
    · rename_i cause he
      exact .of_error he _
    · rename_i text ht
      exact (Prints.of_ok ht).append ih

/-- The instances that are printed of an archive are those that are asked for, but for the greatest
index. -/
theorem requestedInstances_cons {chosen : Option UInt64} (h : chosen ≠ some 18446744073709551615)
    (archive : Archive) (archives : List Archive) :
    requestedInstances chosen (archive :: archives) =
      (chosenInstances chosen archive.instances).map (archive, ·) ++
        requestedInstances chosen archives := by
  rw [requestedInstances, List.flatMap_cons]
  cases chosen with
  | none => rfl
  | some index =>
    have hindex : index.toNat ≠ 18446744073709551615 := fun heq =>
      h (congrArg some (UInt64.toNat_inj.1 heq))
    have hlt : index < index + 1 := by
      have := index.toNat_lt
      rw [UInt64.lt_iff_toNat_lt, UInt64.toNat_add, UInt64.toNat_one]
      omega
    simp [chosenInstances, hlt, requestedInstances]

theorem printArchives_prints {chosen : Option UInt64} (h : chosen ≠ some 18446744073709551615)
    (archives : List Archive) :
    Prints (requestedInstances chosen archives) (printArchives chosen archives) := by
  induction archives with
  | nil => exact .nil
  | cons archive rest ih =>
    have hfirst := archive.texts_prints (chosenInstances chosen archive.instances)
    rw [requestedInstances_cons h, printArchives]
    split
    · rename_i printed cause htexts
      rw [htexts] at hfirst
      exact hfirst.append_of_error _
    · rename_i printed htexts
      rw [htexts] at hfirst
      exact hfirst.append ih

/-- With the greatest index no instance is asked for, and nothing is printed. -/
theorem printArchives_greatest (archives : List Archive) :
    printArchives (some 18446744073709551615) archives = ([], .ok ()) := by
  induction archives with
  | nil => rfl
  | cons archive rest ih =>
    have hnone : chosenInstances (some 18446744073709551615) archive.instances = [] := rfl
    rw [printArchives, hnone, Archive.texts, ih]
    rfl

/-! ## Steps that leave a session as it is -/

abbrev SessionStep := Step (StateM Session)

/-- Whether a step gives a result and leaves the session as it is. -/
def Yields {α : Type} (session : Session) (step : SessionStep α) (a : α) : Prop :=
  step.run.run session = (.ok a, session)

section

variable {α β ε : Type} {session : Session} {o : ReadOptions}

theorem Yields.bind {step : SessionStep α} {next : α → SessionStep β} {a : α} {b : β}
    (h : Yields session step a) (h' : Yields session (next a) b) :
    Yields session (step >>= next) b := by
  simp only [Yields, ExceptT.run_bind, StateT.run_bind] at h h' ⊢
  rw [h]
  exact h'

theorem Yields.run_bind {step : Step SessionStep α} {next : α → Step SessionStep β} {a : α}
    {b : Except Failure β} (h : Yields session step.run (.ok a))
    (h' : Yields session (next a).run b) : Yields session (step >>= next).run b :=
  Yields.bind h h'

theorem yields_orFail (fail : ε → Failure) (a : α) :
    Yields session (orFail fail (.ok a) : Step SessionStep α).run (.ok a) := rfl

/-! ## Inputs -/

theorem yields_expand {input : String} (h : Glob.isPattern input = false) :
    Yields session (ReadOptions.expand input) [input] := by
  rw [ReadOptions.expand, if_neg (by simp [h])]
  rfl

theorem yields_mapM_expand {inputs : List String}
    (h : ∀ input ∈ inputs, Glob.isPattern input = false) :
    Yields session (inputs.mapM ReadOptions.expand) (inputs.map ([·])) := by
  induction inputs with
  | nil => rfl
  | cons input rest ih =>
    obtain ⟨hinput, hrest⟩ := List.forall_mem_cons.1 h
    rw [List.mapM_cons, List.map_cons]
    exact (yields_expand hinput).bind ((ih hrest).bind rfl)

/-! ## Opening -/

/-- Whether a path is that of a file that is opened as an archive, with the format that the command
is told or else with the one that the file says. -/
def ReadOptions.Opens (o : ReadOptions) (tree : FileTree) (path : String)
    (archive : Archive) : Prop :=
  ∃ bytes format, tree.content path = .ok bytes ∧
    (o.format = some format ∨ o.format = none ∧ embeddedFormat bytes = .ok format) ∧
    parse format = .ok archive.schema ∧ Archive.open archive.schema bytes = .ok archive

theorem yields_readContainer {path : String} {bytes : Bytes}
    (h : session.tree.content path = .ok bytes) :
    Yields session (readContainer path : Step SessionStep Bytes).run (.ok bytes) := by
  refine Yields.run_bind (a := .ok bytes) ?_ (yields_orFail _ bytes)
  rw [← h]
  rfl

theorem yields_containerSchema {chosen : Option String} {format : String} {bytes : Bytes}
    {schema : Schema}
    (hf : chosen = some format ∨ chosen = none ∧ embeddedFormat bytes = .ok format)
    (hp : parse format = .ok schema) :
    Yields session (containerSchema chosen bytes : Step SessionStep Schema).run (.ok schema) := by
  have hschema : Yields session (readSchema format : Step SessionStep Schema).run (.ok schema) := by
    rw [readSchema, hp]
    exact yields_orFail _ schema
  rcases hf with rfl | ⟨rfl, he⟩
  · exact hschema
  · refine Yields.run_bind (a := format) ?_ hschema
    rw [he]
    exact yields_orFail _ format

theorem yields_openArchive {path : String} {archive : Archive}
    (h : o.Opens session.tree path archive) :
    Yields session (o.openArchive path : Step SessionStep Archive).run (.ok archive) := by
  obtain ⟨bytes, format, hcontent, hformat, hparse, hopen⟩ := h
  refine (yields_readContainer hcontent).run_bind
    ((yields_containerSchema hformat hparse).run_bind ?_)
  rw [hopen]
  exact yields_orFail _ archive

theorem yields_openArchives {paths : List String} {archives : List Archive}
    (h : List.Forall₂ (o.Opens session.tree) paths archives) :
    Yields session (o.openArchives paths) (archives, none) := by
  induction h with
  | nil => rfl
  | cons hfirst _ ih =>
    rw [ReadOptions.openArchives]
    exact (yields_openArchive hfirst).bind (ih.bind rfl)

/-! ## The command -/

/-- What a command that reads prints and how it ends, where all files are opened. -/
theorem yields_run {paths : List (List String)} {archives : List Archive}
    (hexpand : Yields session (o.inputs.mapM ReadOptions.expand) paths)
    (hopen : List.Forall₂ (o.Opens session.tree) paths.flatten archives) :
    Yields session o.run ⟨(printArchives o.index archives).1,
      ((printArchives o.index archives).2.mapError .archive).map fun _ => ""⟩ := by
  rw [ReadOptions.run]
  refine hexpand.bind ((yields_openArchives hopen).bind ?_)
  dsimp only
  split
  · rename_i printed cause hprint
    rw [hprint]
    rfl
  · rename_i hfailure
    cases hfailure
  · rename_i hprint _
    rw [hprint]
    rfl

theorem run_of_yields {c : Command} {outcome : Outcome} (h : Yields session c.outcome outcome) :
    (c.run : StateM Session Report).run session = (outcome.report, session) := by
  rw [Command.run, StateT.run_bind, h]
  rfl

end

def readReport (printed : Bytes) : Except ReadError Unit → Report
  | .ok () => ⟨printed, "", 0⟩
  | .error cause => ⟨printed, s!"error: {cause.message}\n", 1⟩

/-- Where all files are opened, the instances that are asked for are printed in order up to the
first that cannot be read, of which one that an archive does not have is reported as out of range.
But with the greatest index nothing is printed and the command succeeds, whatever the archives
have. -/
theorem read_prints_requested {session : Session} {o : ReadOptions} {paths : List (List String)}
    {archives : List Archive}
    (hexpand : Yields session (o.inputs.mapM ReadOptions.expand) paths)
    (hopen : List.Forall₂ (o.Opens session.tree) paths.flatten archives) :
    ∃ printed result,
      ((Command.read o).run : StateM Session Report).run session =
        (readReport printed result, session) ∧
      (o.index ≠ some 18446744073709551615 →
        Prints (requestedInstances o.index archives) (printed, result) ∧
          (result = .ok () → ∀ request ∈ requestedInstances o.index archives,
            request.2 < request.1.instances)) ∧
      (∀ archive ∈ archives, ∀ index, archive.instances ≤ index →
        archive.readText index = .error (.instanceOutOfRange index archive.instances)) ∧
      (o.index = some 18446744073709551615 → printed = [] ∧ result = .ok ()) := by
  refine ⟨(printArchives o.index archives).1, (printArchives o.index archives).2, ?_,
    fun h => ?_, fun _ _ _ => Archive.readText_of_instances_le, fun h => ?_⟩
  · rw [run_of_yields (c := .read o) (yields_run hexpand hopen)]
    cases (printArchives o.index archives).2 <;> rfl
  · have hprints := printArchives_prints h archives
    refine ⟨hprints, fun hok => ?_⟩
    have heq : printArchives o.index archives = ((printArchives o.index archives).1, .ok ()) := by
      rw [← hok]
    rw [heq] at hprints
    exact hprints.lt_instances
  · rw [h, printArchives_greatest]
    exact ⟨rfl, rfl⟩

/-! ## A file of one number -/

def soleNumberFile : Bytes :=
  Header.write "l" ++ Section.write .flat 0 [] (Section.flatBody 4 [Bytes.ofNat 4 7])

def soleNumberSession : Session := ⟨⟨[], [], [(["v.ft"], soleNumberFile)]⟩, []⟩

/-- A path of one step. Texts are split by a recursion that the kernel does not run, so it is
unfolded here. -/
theorem steps_soleNumber : Path.steps "v.ft" = ["v.ft"] := by
  have hsplit : "v.ft".splitOn "/" = ["v.ft"] := by
    rw [String.splitOn, if_neg (by decide)]
    iterate 4 rw [String.splitOnAux, if_neg (by decide +kernel), if_neg (by decide +kernel)]
    rw [String.splitOnAux, if_pos (by decide +kernel)]
    decide +kernel
  rw [Path.steps, hsplit]
  decide

theorem exists_open_soleNumberFile (index : Option UInt64) : ∃ archive, archive.instances = 1 ∧
    ReadOptions.Opens ⟨none, index, ["v.ft"]⟩ soleNumberSession.tree "v.ft" archive := by
  have hopen : (Archive.open (.flat ⟨⟨0, "l"⟩, .primitive .i32⟩) soleNumberFile).map
      (fun archive => (archive.schema, archive.instances)) =
        .ok (.flat ⟨⟨0, "l"⟩, .primitive .i32⟩, 1) := by decide +kernel
  obtain ⟨archive, harchive, heq⟩ := map_eq_ok.1 hopen
  obtain ⟨hschema, hinstances⟩ := Prod.mk.inj heq
  have hcontent : soleNumberSession.tree.content "v.ft" = .ok soleNumberFile := by
    simp only [FileTree.content, FileTree.find, FileTree.locate, steps_soleNumber]
    decide +kernel
  refine ⟨archive, hinstances, soleNumberFile, "l", hcontent, .inr ⟨rfl, by decide +kernel⟩, ?_,
    ?_⟩
  · rw [hschema]
    decide +kernel
  · rwa [hschema]

theorem yields_expand_soleNumber :
    Yields soleNumberSession (["v.ft"].mapM ReadOptions.expand) [["v.ft"]] := by
  have hplain : ∀ input ∈ ["v.ft"], Glob.isPattern input = false := by
    rw [List.forall_mem_singleton, Glob.isPattern, String.any, String.contains_bool_eq]
    decide
  exact yields_mapM_expand hplain

/-- The instance behind the only one is out of range. -/
theorem read_behind_soleNumber : ∃ archive, archive.instances = 1 ∧ ∃ printed result,
    ((Command.read ⟨none, some 1, ["v.ft"]⟩).run : StateM Session Report).run soleNumberSession =
        (readReport printed result, soleNumberSession) ∧
      Prints [(archive, 1)] (printed, result) ∧
      archive.readText 1 = .error (.instanceOutOfRange 1 archive.instances) := by
  obtain ⟨archive, hinstances, hopen⟩ := exists_open_soleNumberFile (some 1)
  have hopens : List.Forall₂ (ReadOptions.Opens ⟨none, some 1, ["v.ft"]⟩ soleNumberSession.tree)
      [["v.ft"]].flatten [archive] := .cons hopen .nil
  obtain ⟨printed, result, hrun, hprints, hrange, -⟩ :=
    read_prints_requested yields_expand_soleNumber hopens
  exact ⟨archive, hinstances, printed, result, hrun, (hprints (by simp)).1,
    hrange archive (by simp) 1 (Nat.le_of_eq hinstances)⟩

/-- The only instance of the file has not the greatest index, and yet nothing is reported. -/
theorem read_greatest_soleNumber :
    (∃ archive, archive.instances = 1 ∧ ReadOptions.Opens
      ⟨none, some 18446744073709551615, ["v.ft"]⟩ soleNumberSession.tree "v.ft" archive) ∧
    ((Command.read ⟨none, some 18446744073709551615, ["v.ft"]⟩).run : StateM Session Report).run
      soleNumberSession = (⟨[], "", 0⟩, soleNumberSession) := by
  obtain ⟨archive, hinstances, hopen⟩ := exists_open_soleNumberFile (some 18446744073709551615)
  refine ⟨⟨archive, hinstances, hopen⟩, ?_⟩
  rw [run_of_yields (c := .read _) (yields_run yields_expand_soleNumber (.cons hopen .nil)),
    printArchives_greatest]
  rfl

end RecordStore
