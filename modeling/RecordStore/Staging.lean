import RecordStore.Bytes
import RecordStore.Files.Path
import RecordStore.SystemError

/-!
# Staging areas

Payloads that are not yet in their final order are appended to a staging area and read back by
the handle of each. An area is a log of bytes with a table of ranges. Its log lives in memory or
in a file of the build's own directory; the file stands behind a write buffer and has a position
that reading moves.

## Main definitions

* `Directory` — the files of a staging directory.
* `Area` — a staging area.
* `Area.create`, `Area.write`, `Area.append`, `Area.read`, `Area.contents` — its operations. They
  take the directory and give it back.
-/

namespace RecordStore

/-! ## Directories -/

structure Directory where
  files : List (String × Array UInt8)
  deriving DecidableEq, Repr

/-- Writes bytes into a file at a position. A position behind the end leaves zeros in between. -/
def overwrite (content : Array UInt8) (position : Nat) (bytes : Array UInt8) : Array UInt8 :=
  if content.size ≤ position then
    content ++ Array.replicate (position - content.size) 0 ++ bytes
  else
    content.extract 0 position ++ bytes ++ content.extract (position + bytes.size) content.size

namespace Directory

def empty : Directory := ⟨[]⟩

def content (d : Directory) (name : String) : Array UInt8 := (d.files.lookup name).getD #[]

def remove (d : Directory) (name : String) : Directory :=
  ⟨d.files.filter fun file => file.1 != name⟩

/-- Makes an empty file, or empties the one that is there. -/
def create (d : Directory) (name : String) : Directory := ⟨(name, #[]) :: (d.remove name).files⟩

def writeAt (d : Directory) (name : String) (position : Nat) (bytes : Array UInt8) : Directory :=
  if bytes.isEmpty then d
  else
    ⟨d.files.map fun (other, content) =>
      (other, if other = name then overwrite content position bytes else content)⟩

/-- Why no file of a directory can have a name, if so: it has a zero in it, it leads through a
directory inside, of which there are none, or it is too long. -/
def nameFault? (name : String) : Option SystemError :=
  if name.contains '\x00' then some (.other "file name contained an unexpected NUL byte")
  else if name.contains '/' then some .notFound
  else if Path.nameLimit < name.utf8ByteSize then some .nameTooLong
  else none

end Directory

/-! ## Areas -/

inductive StagingError
  | noPayload (rank : Nat) (area : String)
  /-- The file ends before the range does. -/
  | shortFile
  | system (cause : SystemError)
  deriving DecidableEq, Repr

def StagingError.message : StagingError → String
  | noPayload rank area => s!"no payload {rank} in staging area {area}"
  | shortFile => "failed to fill whole buffer"
  | system cause => cause.message

inductive Backing
  | memory (log : Array UInt8)
  /-- A file of the area's name, with a position and the bytes that are not written yet. -/
  | disk (position : Nat) (pending : Array UInt8)
  deriving DecidableEq, Repr

structure Area where
  name : String
  backing : Backing
  /-- How many bytes have been appended. -/
  length : Nat
  /-- Offset and length of each payload. -/
  ranges : Array (Nat × Nat)
  deriving DecidableEq, Repr

namespace Area

/-- The rank of a payload in the area it was appended to. -/
abbrev Handle := Nat

def nameOf (ordinal : Nat) (role : String) : String := s!"{ordinal}-{role}"

/-- A new area. On disk its file is created, or emptied if it is there. -/
def create (onDisk : Bool) (name : String) (d : Directory) : Area × Directory :=
  if onDisk then (⟨name, .disk 0 #[], 0, #[]⟩, d.create name)
  else (⟨name, .memory #[], 0, #[]⟩, d)

/-- A new area of any name. On disk the name must be one that a file can have. -/
def createChecked (onDisk : Bool) (name : String) (d : Directory) :
    Except SystemError (Area × Directory) :=
  match if onDisk then Directory.nameFault? name else none with
  | some cause => .error cause
  | none => .ok (create onDisk name d)

def close (a : Area) (d : Directory) : Directory :=
  match a.backing with
  | .memory _ => d
  | .disk .. => d.remove a.name

def bufferSize : Nat := 8192

def flush (a : Area) (d : Directory) : Area × Directory :=
  match a with
  | ⟨name, .disk position pending, length, ranges⟩ =>
    (⟨name, .disk (position + pending.size) #[], length, ranges⟩,
      d.writeAt name position pending)
  | a => (a, d)

/-- Appends bytes to the log without counting them. On disk they go behind the pending ones:
bytes that do not fit the buffer flush it first, and bytes as long as the buffer are not held
back. -/
def push (a : Area) (bytes : Bytes) (d : Directory) : Area × Directory :=
  match a with
  | ⟨name, .memory log, length, ranges⟩ => (⟨name, .memory (log ++ bytes), length, ranges⟩, d)
  | ⟨_, .disk _ pending, _, _⟩ =>
    let (a, d) := if bufferSize - pending.size < bytes.length then a.flush d else (a, d)
    match a with
    | ⟨name, .disk position pending, length, ranges⟩ =>
      let a : Area := ⟨name, .disk position (pending ++ bytes), length, ranges⟩
      if bufferSize ≤ bytes.length then a.flush d else (a, d)
    | a => (a, d)

/-- Appends bytes without a range of their own. -/
def write (a : Area) (bytes : Bytes) (d : Directory) : Area × Directory :=
  let (a, d) := a.push bytes d
  ({ a with length := a.length + bytes.length }, d)

def append (a : Area) (bytes : Bytes) (d : Directory) : Handle × Area × Directory :=
  let range := (a.length, bytes.length)
  let (a, d) := a.write bytes d
  (a.ranges.size, { a with ranges := a.ranges.push range }, d)

/-- The payload of a handle. Reading a file leaves its position at the end. -/
def read (a : Area) (handle : Handle) (d : Directory) :
    Except StagingError Bytes × Area × Directory :=
  match a.ranges[handle]? with
  | none => (.error (.noPayload handle a.name), a, d)
  | some (offset, length) =>
    match a.backing with
    | .memory log => (.ok (log.extract offset (offset + length)).toList, a, d)
    | .disk .. =>
      let (a, d) := a.flush d
      let content := d.content a.name
      let payload := (content.extract offset (offset + length)).toList
      if payload.length < length then
        (.error .shortFile, { a with backing := .disk (offset + payload.length) #[] }, d)
      else (.ok payload, { a with backing := .disk content.size #[] }, d)

def contents (a : Area) (d : Directory) : Bytes × Area × Directory :=
  match a.backing with
  | .memory log => (log.toList, a, d)
  | .disk .. =>
    let (a, d) := a.flush d
    let content := d.content a.name
    (content.toList, { a with backing := .disk content.size #[] }, d)

end Area

end RecordStore
