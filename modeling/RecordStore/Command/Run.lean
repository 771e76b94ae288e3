import RecordStore.Archive
import RecordStore.Command.Basic
import RecordStore.Command.Failure
import RecordStore.Format.Parse
import RecordStore.Schema.Print

/-!
# Running commands

A command runs on a host and ends with a report. What it prints before a failure is kept.

## Main definitions

* `Report` — what a command prints and says, and its status.
* `Archive.texts`, `printArchives` — the texts of chosen instances.
* `Archive.answers` — the answers to keys.
* `Command.run` — runs a command.
* `runArguments` — runs a command line.
-/

namespace RecordStore

structure Outcome where
  printed : Bytes
  result : Except Failure String
  deriving Repr

structure Report where
  output : Bytes
  notes : String
  status : Nat
  deriving DecidableEq, Repr

def Outcome.report (o : Outcome) : Report :=
  match o.result with
  | .ok notes => ⟨o.printed, notes, 0⟩
  | .error failure => ⟨o.printed, s!"error: {failure.message}\n", 1⟩

/-! ## Instances and keys -/

/-- The texts of instances, up to the first that cannot be read. -/
def Archive.texts (a : Archive) : List Nat → Bytes × Except ReadError Unit
  | [] => ([], .ok ())
  | index :: rest =>
    match a.readText index with
    | .error cause => ([], .error cause)
    | .ok text =>
      let (more, result) := a.texts rest
      (text ++ more, result)

/-- The instances to print: all of them, or those from the chosen one to before its successor.
The successor of the greatest index is zero, so that choice is empty. -/
def chosenInstances (chosen : Option UInt64) (count : Nat) : List Nat :=
  match chosen with
  | some index => if index < index + 1 then [index.toNat] else []
  | none => List.range count

def printArchives (chosen : Option UInt64) : List Archive → Bytes × Except ReadError Unit
  | [] => ([], .ok ())
  | archive :: rest =>
    match archive.texts (chosenInstances chosen archive.instances) with
    | (printed, .error cause) => (printed, .error cause)
    | (printed, .ok ()) =>
      let (more, result) := printArchives chosen rest
      (printed ++ more, result)

/-- The answers to keys before a delimiter: what stands behind the key, if anything does, and the
delimiter. A key that cannot be looked up has no answer. -/
def Archive.answers (a : Archive) (delim keys : Bytes) : Bytes :=
  (Records.split delim keys).flatMap fun key =>
    match a.lookup key with
    | .ok (some text) => text ++ delim
    | _ => delim

def Schema.entrySeparator? : Schema → Option Bytes
  | .set _ keys => some keys.sep
  | .map _ _ _ sep => some sep
  | _ => none

/-! ## Commands -/

variable {m : Type → Type} [Monad m] [Host m]

abbrev Step (m : Type → Type) := ExceptT Failure m

def orFail {ε α : Type} (fail : ε → Failure) (result : Except ε α) : Step m α :=
  match result with
  | .ok a => return a
  | .error cause => throw (fail cause)

/-- The format of a command that is not told one. -/
def defaultFormat : String := "T(c*)\n"

def readSchema (format : String) : Step m Schema := orFail .format (parse format)

def readContainer (path : String) : Step m Bytes := do
  orFail (fun cause => .during .reading path (.system cause)) (← Host.content path)

/-- The schema of a container file: of the given format, or of the one stored in the file. -/
def containerSchema (format : Option String) (bytes : Bytes) : Step m Schema := do
  match format with
  | some format => readSchema format
  | none => readSchema (← orFail .archive (embeddedFormat bytes))

namespace BuildOptions

/-- The configuration: what the file says, as far as the flags do not say otherwise. -/
def configuration (o : BuildOptions) : Step m Config := do
  let config ← match o.config with
    | none => pure .standard
    | some path =>
      let text ← orFail (.unreadableConfig path) (← Host.content path)
      orFail .invalidConfig (Config.read text)
  let mode := if o.disk || o.tmpdir.isSome then .disk else config.mode
  return ⟨mode, o.tmpdir <|> config.parent⟩

/-- Where a build stages its parts. The parent of the directory for that must be a directory. -/
def staging (config : Config) : Step m Staging := do
  match config.mode with
  | .memory => return .memory
  | .disk =>
    let parent := config.parent.getD (← Host.temporary)
    match ← Host.kind? (if parent = "" then "." else parent) with
    | none => return .disk parent (some .notFound)
    | some .file => return .disk parent (some .notDirectory)
    | some .directory => return .disk parent none

def createOutput (path : String) : Step m Unit := do
  orFail .system (← Host.makeParents path)
  orFail (fun cause => .during .creating path (.system cause)) (← Host.create path)

def notes (summary : BuildSummary) : String :=
  if summary.skipped = 0 then "" else s!"skipped {summary.skipped} malformed record(s)\n"

def run (o : BuildOptions) : Step m Outcome := do
  let schema ← readSchema (o.format.getD defaultFormat)
  let outer ← o.separator.mapM fun text => orFail .format (unescape text.toList)
  let config ← o.configuration
  if let some path := o.input then
    orFail (fun cause => .during .opening path (.system cause)) (← Host.openPath path)
  if let some path := o.out then createOutput path
  let staging ← staging config
  let input ← match o.input with
    | some path => Host.content path
    | none => pure (.ok (← Host.input))
  let (output, result) := build staging schema outer input
  let result := (result.map notes).mapError .build
  match o.out with
  | none => return ⟨output, result⟩
  | some path =>
    orFail (fun cause => .build (.staged (.system cause))) (← Host.save path output)
    return ⟨[], result⟩

end BuildOptions

namespace ReadOptions

def expand (input : String) : Step m (List String) := do
  if Glob.isPattern input then
    let glob ← orFail .pattern (Glob.read input)
    let paths ← orFail .unreadableDirectory (← glob.search.run)
    if paths.isEmpty then throw (.noMatches input)
    return paths
  else return [input]

def openArchive (o : ReadOptions) (path : String) : Step m Archive := do
  let bytes ← readContainer path
  let schema ← containerSchema o.format bytes
  orFail (fun cause => .during .opening path (.archive cause)) (Archive.open schema bytes)

/-- The archives up to the first that cannot be opened, and why it cannot. -/
def openArchives (o : ReadOptions) : List String → m (List Archive × Option Failure)
  | [] => return ([], none)
  | path :: rest => do
    match ← (o.openArchive path).run with
    | .error failure => return ([], some failure)
    | .ok archive =>
      let (archives, failure) ← o.openArchives rest
      return (archive :: archives, failure)

def run (o : ReadOptions) : Step m Outcome := do
  let paths ← o.inputs.mapM expand
  let (archives, failure) ← o.openArchives paths.flatten
  match printArchives o.index archives, failure with
  | (printed, .error cause), _ => return ⟨printed, .error (.archive cause)⟩
  | (printed, .ok ()), some failure => return ⟨printed, .error failure⟩
  | (printed, .ok ()), none => return ⟨printed, .ok ""⟩

end ReadOptions

def LookupOptions.run (o : LookupOptions) : Step m Outcome := do
  let bytes ← readContainer o.archive
  let schema ← containerSchema o.format bytes
  let archive ← orFail .archive (Archive.open schema bytes)
  match schema.entrySeparator? with
  | none => throw (.notKeyed schema.source)
  | some delim => return ⟨archive.answers delim (← Host.input), .ok ""⟩

def printSchema (format : Option String) : Step m Outcome := do
  let schema ← readSchema (format.getD defaultFormat)
  return ⟨Bytes.ofText (schema.print ++ "\n"), .ok ""⟩

/-! ## Command lines -/

def versionText : String := "fasttrie 0.1.0\n"

def usageText : String :=
  "usage: build [-f FORMAT] [-s SEPARATOR] [--disk] [--tmpdir DIRECTORY]\n" ++
  "             [--config FILE] [-o FILE] [INPUT]\n" ++
  "       read [-f FORMAT] [--instance INDEX] INPUT...\n" ++
  "       lookup [-f FORMAT] ARCHIVE\n" ++
  "       schema [-f FORMAT]\n"

def Command.outcome : Command → Step m Outcome
  | build options => options.run
  | read options => options.run
  | lookup options => options.run
  | schema format => printSchema format
  | version => return ⟨Bytes.ofText versionText, .ok ""⟩
  | help => return ⟨Bytes.ofText usageText, .ok ""⟩

def Command.run (c : Command) : m Report := do
  match ← (c.outcome (m := m)).run with
  | .ok outcome => return outcome.report
  | .error failure => return Outcome.report ⟨[], .error failure⟩

/-- Runs a command line. One that is no command has the status 2. -/
def runArguments (arguments : List String) : m Report :=
  match Command.ofArguments? arguments with
  | some command => command.run
  | none => return ⟨[], usageText, 2⟩

end RecordStore
