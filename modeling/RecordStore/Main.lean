import RecordStore.Command.Run

/-!
# The program

Commands run on the files of the system.
-/

namespace RecordStore

/-- What the system says, by the number of the error where it is a common one. -/
def SystemError.ofError (e : IO.Error) : SystemError :=
  match e with
  | .noFileOrDirectory .. => .notFound
  | .permissionDenied .. => .notPermitted
  | .alreadyExists .. => .alreadyExists
  | .inappropriateType _ code _ =>
    if code = 20 then .notDirectory else if code = 21 then .isDirectory else .other e.toString
  | .invalidArgument _ code _ => if code = 36 then .nameTooLong else .other e.toString
  | e => .other e.toString

def attempt {α : Type} (run : IO α) : IO (Except SystemError α) :=
  return (← run.toBaseIO).mapError .ofError

/-- The bytes that are left in a stream. -/
partial def readAll (stream : IO.FS.Stream) (read : ByteArray) : IO ByteArray := do
  let more ← stream.read 65536
  if more.isEmpty then return read else readAll stream (read ++ more)

instance : Host IO where
  input := return (← readAll (← IO.getStdin) .empty).toList
  temporary := return (← IO.getEnv "TMPDIR").getD "/tmp"
  kind? path := do
    let place := (← IO.currentDir) / path
    if ← place.isDir then return some .directory
    if ← place.pathExists then return some .file
    return none
  names path := attempt do
    return (← ((← IO.currentDir) / path).readDir).toList.map (·.fileName)
  openPath path := attempt do
    let _ ← IO.FS.Handle.mk path .read
  content path := attempt do
    return (← IO.FS.readBinFile path).toList
  makeDirectory path := attempt (IO.FS.createDir path)
  create path := attempt (IO.FS.writeBinFile path .empty)
  save path content := attempt (IO.FS.writeBinFile path content.toByteArray)

end RecordStore

def main (arguments : List String) : IO UInt32 := do
  let report : RecordStore.Report ← RecordStore.runArguments arguments
  let output ← IO.getStdout
  output.write report.output.toByteArray
  output.flush
  IO.eprint report.notes
  return report.status.toUInt32
