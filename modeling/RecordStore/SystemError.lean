/-!
# Errors of the file system

## Main definitions

* `SystemError` — what the system says about a file.
* `SystemError.message` — its words.
-/

namespace RecordStore

inductive SystemError
  | notFound
  | notPermitted
  | alreadyExists
  | notDirectory
  | isDirectory
  | nameTooLong
  /-- Anything else, in the system's own words. -/
  | other (message : String)
  deriving DecidableEq, Repr

def SystemError.message : SystemError → String
  | notFound => "No such file or directory (os error 2)"
  | notPermitted => "Permission denied (os error 13)"
  | alreadyExists => "File exists (os error 17)"
  | notDirectory => "Not a directory (os error 20)"
  | isDirectory => "Is a directory (os error 21)"
  | nameTooLong => "File name too long (os error 36)"
  | other message => message

end RecordStore
