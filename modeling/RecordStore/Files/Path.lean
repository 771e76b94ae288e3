/-!
# Paths of files

A path is a text of steps between slashes. Empty steps do not count and a single dot stays where
it is, except that what it stays in must be a directory, like whatever a slash follows.

## Main definitions

* `Path.steps`, `Path.components`, `Path.isAbsolute`, `Path.isHere` — what a path says.
* `Path.join` — a name inside a directory.
* `Path.nameLimit`, `Path.pathLimit` — how long names and paths can be.
-/

namespace RecordStore.Path

def steps (path : String) : List String := (path.splitOn "/").filter (· != "")

def leads (step : String) : Bool := step != "" && step != "."

def components (path : String) : List String := (path.splitOn "/").filter leads

def isAbsolute (path : String) : Bool := path.startsWith "/"

/-- Whether a path is the directory in which one stands, in any spelling. -/
def isHere (path : String) : Bool :=
  path != "" && !isAbsolute path && (components path).isEmpty

def join (directory name : String) : String :=
  if directory = "" || directory.endsWith "/" then directory ++ name
  else directory ++ "/" ++ name

/-! ## Limits -/

def nameLimit : Nat := 255

def pathLimit : Nat := 4095

end RecordStore.Path
