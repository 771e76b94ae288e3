import RecordStore.Files.Glob
import RecordStore.Files.Host

/-!
# Searching for files

The paths that fit a pattern are found from the directory in which it starts, component by
component. Names are met in order, and what lies inside a directory comes behind the directory
itself.

## Main definitions

* `Glob.descend` — the paths that fit what is left of a pattern.
* `Glob.search` — the paths that fit a pattern.
-/

namespace RecordStore.Glob

structure Unreadable where
  path : String
  cause : SystemError
  deriving DecidableEq, Repr

def Unreadable.message (fault : Unreadable) : String :=
  s!"attempting to read \x60{fault.path}\x60 resulted in an error: {fault.cause.message}"

def Part.fits : Part → String → Bool
  | .wayDown, _ => false
  | .literal expected, name => expected = name
  | .wildcards tokens, name => Token.matches tokens name.toList

/-- A name inside a directory. Paths do not start with the directory in which one stands. -/
def inside (directory name : String) : String :=
  if Path.isHere directory then name else Path.join directory name

variable {m : Type → Type} [Monad m] [Host m]

def sortedNames (directory : String) : ExceptT Unreadable m (List String) := do
  match ← Host.names directory with
  | .ok names => return names.mergeSort fun a b => a ≤ b
  | .error cause => throw ⟨directory, cause⟩

/-- The paths inside a directory that fit the components left. Wildcards look at most `depth`
directories down. A component that starts with a dot may also be the directory itself or the one
around it. -/
def descend (directories : Bool) (depth : Nat) (path : String) (parts : List Part) :
    ExceptT Unreadable m (List String) := do
  match depth, parts with
  | _, [] =>
    if directories && !(← Host.isDirectory path) then return [] else return [path]
  | depth, .literal name :: rest =>
    let next := inside path name
    let found ←
      if name = "." || name = ".." then Host.isDirectory path
      else pure (← Host.kind? next).isSome
    if found then descend directories depth next rest else return []
  | 0, _ => return []
  | depth + 1, part :: rest =>
    if !(← Host.isDirectory path) then return []
    let special ← [".", ".."].reverse.mapM fun name => do
      match part with
      | .wildcards (.char '.' :: _) =>
        if part.fits name then descend directories (depth + 1) (Path.join path name) rest
        else return []
      | _ => return []
    let children ← (← sortedNames path).mapM fun name => do
      let child := inside path name
      if part != .wayDown then
        if part.fits name then descend directories depth child rest else return []
      else
        let isDirectory ← Host.isDirectory child
        let below ← if isDirectory then descend directories depth child parts else pure []
        let here ← match rest with
          | [] => pure (if isDirectory then [child] else [])
          | next :: rest =>
            if next.fits name then descend directories depth child rest else pure []
        return here ++ below
    return special.flatten ++ children.flatten
termination_by (depth, parts.length)

/-- How many directories deep a path can lead: it has no more bytes than this. -/
def depthLimit : Nat := 4096

def search (g : Glob) : ExceptT Unreadable m (List String) :=
  descend g.directories depthLimit (if g.absolute then "/" else ".") g.parts

end RecordStore.Glob
