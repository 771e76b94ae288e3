import RecordStore.Build
import RecordStore.Config
import RecordStore.Files.Search
import RecordStore.Format.Error
import RecordStore.Store.Error

/-!
# Failures of commands

A failure is told as a chain: what was being done, what went wrong, and what caused that.

## Main definitions

* `Failure` — why a command fails.
* `Failure.message` — the chain in one line.
-/

namespace RecordStore

inductive Activity
  | opening
  | creating
  | reading
  deriving DecidableEq, Repr

def Activity.text : Activity → String
  | opening => "opening"
  | creating => "creating"
  | reading => "reading"

inductive Failure
  | format (cause : FormatError)
  | unreadableConfig (path : String) (cause : SystemError)
  | invalidConfig (place : Config.Path)
  | build (cause : BuildError)
  | archive (cause : ReadError)
  /-- The root of an archive has no keys. -/
  | notKeyed (source : String)
  | system (cause : SystemError)
  | pattern (cause : Glob.Fault)
  | unreadableDirectory (cause : Glob.Unreadable)
  | noMatches (text : String)
  /-- Something fails while a path is worked on. -/
  | during (activity : Activity) (path : String) (cause : Failure)
  deriving Repr

namespace Failure

def chain : Failure → List String
  | format cause => [cause.message]
  | unreadableConfig path cause =>
    [s!"reading {Quoted.quote path}: {cause.message}", cause.message]
  | invalidConfig place => [s!"at JSON path {place.text} → invalid configuration"]
  | build cause => cause.message :: cause.cause?.toList
  | archive cause => [cause.message]
  | notKeyed source => [s!"lookup needs a T(...) or H(...) format, got {Quoted.quote source}"]
  | system cause => [cause.message]
  | pattern cause => [cause.message]
  | unreadableDirectory fault => [fault.message, fault.cause.message]
  | noMatches text => [s!"glob pattern matched no files: {text}"]
  | during activity path cause => s!"{activity.text} {path}" :: cause.chain

def message (f : Failure) : String := ": ".intercalate f.chain

end Failure

end RecordStore
