import RecordStore.Bytes
import RecordStore.SystemError
import RecordStore.Files.Path

/-!
# Hosts

Commands reach files and standard input through a host, so they run on the files of a system and
on a tree of files in memory alike.

## Main definitions

* `Host` — the operations of a host.
* `Host.makeParents` — makes the directories that a path goes through.
-/

namespace RecordStore

inductive FileKind
  | file
  | directory
  deriving DecidableEq, Repr

class Host (m : Type → Type) where
  /-- All bytes of the standard input. -/
  input : m Bytes
  /-- The directory in which temporary files belong. -/
  temporary : m String
  /-- What is at a path. -/
  kind? : String → m (Option FileKind)
  /-- The names inside a directory. -/
  names : String → m (Except SystemError (List String))
  /-- Opens a file or a directory for reading. -/
  openPath : String → m (Except SystemError Unit)
  /-- The content of a file. -/
  content : String → m (Except SystemError Bytes)
  makeDirectory : String → m (Except SystemError Unit)
  /-- Makes an empty file, or empties the one that is there. -/
  create : String → m (Except SystemError Unit)
  /-- Sets the content of a file that is there. -/
  save : String → Bytes → m (Except SystemError Unit)

/-- What may fail has the operations of its host. -/
instance {m : Type → Type} [Monad m] [Host m] {ε : Type} : Host (ExceptT ε m) where
  input := ExceptT.lift Host.input
  temporary := ExceptT.lift Host.temporary
  kind? path := ExceptT.lift (Host.kind? path)
  names path := ExceptT.lift (Host.names path)
  openPath path := ExceptT.lift (Host.openPath path)
  content path := ExceptT.lift (Host.content path)
  makeDirectory path := ExceptT.lift (Host.makeDirectory path)
  create path := ExceptT.lift (Host.create path)
  save path content := ExceptT.lift (Host.save path content)

namespace Host

variable {m : Type → Type} [Monad m] [Host m]

def isDirectory (path : String) : m Bool := return (← kind? path) = some .directory

/-- Makes a directory; one that is there will do. -/
def ensureDirectory (path : String) : m (Except SystemError Unit) := do
  match ← makeDirectory path with
  | .ok _ => return .ok ()
  | .error cause => return if ← isDirectory path then .ok () else .error cause

/-- Makes the directory that the last of reversed steps leads to, and those that it is in as far
as they are missing. -/
def makeReversed : List String → m (Except SystemError Unit)
  | [] => return .ok ()
  | step :: outer => do
    if !Path.leads step then makeReversed outer
    else
      let path := "/".intercalate (step :: outer).reverse
      match ← ensureDirectory path with
      | .error .notFound =>
        match ← makeReversed outer with
        | .ok _ => ensureDirectory path
        | .error cause => return .error cause
      | result => return result

def makeParents (path : String) : m (Except SystemError Unit) :=
  makeReversed (((path.splitOn "/").reverse.dropWhile fun step => !Path.leads step).drop 1)

end Host

end RecordStore
