import RecordStore.Files.Host

/-!
# Trees of files

A tree of files in memory, with the errors that a system reports. It serves commands as a host.

## Main definitions

* `FileTree` — files and directories by where they are.
* `FileTree.locate` — where a path leads.
* `Session` — a tree with a standard input; a host.
-/

namespace RecordStore

abbrev Location := List String

structure FileTree where
  /-- Where relative paths start. -/
  base : Location
  /-- All directories but the root. -/
  directories : List Location
  files : List (Location × Bytes)
  deriving DecidableEq, Repr

namespace FileTree

def kind? (t : FileTree) (location : Location) : Option FileKind :=
  if (t.files.lookup location).isSome then some .file
  else if location.isEmpty || t.directories.contains location then some .directory
  else none

def enter (t : FileTree) (location : Location) : Except SystemError Unit :=
  match t.kind? location with
  | none => .error .notFound
  | some .file => .error .notDirectory
  | some .directory => .ok ()

/-- Follows steps, each of which starts in a directory. -/
def walk (t : FileTree) (location : Location) : List String → Except SystemError Location
  | [] => .ok location
  | step :: steps => do
    t.enter location
    if step = "." then t.walk location steps
    else if step = ".." then t.walk location.dropLast steps
    else if Path.nameLimit < step.utf8ByteSize then throw .nameTooLong
    else t.walk (location ++ [step]) steps

def origin (t : FileTree) (path : String) : Except SystemError Location :=
  if path = "" then .error .notFound
  else if Path.pathLimit < path.utf8ByteSize then .error .nameTooLong
  else .ok (if Path.isAbsolute path then [] else t.base)

/-- Where a path leads, whether something is there or not. -/
def locate (t : FileTree) (path : String) : Except SystemError Location := do
  t.walk (← t.origin path) (Path.steps path)

/-- Where a path leads that is to be that of a file. One that ends in a slash or in dots is that
of a directory. -/
def locateFile (t : FileTree) (path : String) : Except SystemError Location := do
  let outer ← t.walk (← t.origin path) (Path.steps path).dropLast
  t.enter outer
  match (Path.steps path).getLast? with
  | none | some "." | some ".." => throw .isDirectory
  | some name => if path.endsWith "/" then throw .isDirectory else t.walk outer [name]

def find (t : FileTree) (path : String) : Except SystemError (Location × FileKind) := do
  let location ← t.locate path
  match t.kind? location with
  | none => throw .notFound
  | some .file => if path.endsWith "/" then throw .notDirectory else return (location, .file)
  | some .directory => return (location, .directory)

def content (t : FileTree) (path : String) : Except SystemError Bytes := do
  match ← t.find path with
  | (location, .file) => return (t.files.lookup location).getD []
  | (_, .directory) => throw .isDirectory

def names (t : FileTree) (path : String) : Except SystemError (List String) := do
  match ← t.find path with
  | (_, .file) => throw .notDirectory
  | (location, .directory) =>
    let inside (other : Location) : Option String :=
      if other.dropLast = location then other.getLast? else none
    return t.directories.filterMap inside ++ t.files.filterMap fun file => inside file.1

def makeDirectory (t : FileTree) (path : String) : Except SystemError FileTree := do
  let location ← t.locate path
  match t.kind? location with
  | some _ => throw .alreadyExists
  | none => return { t with directories := location :: t.directories }

def put (t : FileTree) (location : Location) (content : Bytes) : FileTree :=
  { t with files := (location, content) :: t.files.filter fun file => file.1 != location }

def write (t : FileTree) (path : String) (content : Bytes) : Except SystemError FileTree := do
  let location ← t.locateFile path
  if t.kind? location = some .directory then throw .isDirectory
  return t.put location content

end FileTree

/-! ## Sessions -/

structure Session where
  tree : FileTree
  input : Bytes
  deriving DecidableEq, Repr

namespace Session

def change (edit : FileTree → Except SystemError FileTree) :
    StateM Session (Except SystemError Unit) :=
  modifyGet fun s =>
    match edit s.tree with
    | .ok tree => (.ok (), { s with tree })
    | .error cause => (.error cause, s)

end Session

instance : Host (StateM Session) where
  input := return (← get).input
  temporary := return "/tmp"
  kind? path := return ((← get).tree.find path).toOption.map (·.2)
  names path := return (← get).tree.names path
  openPath path := return ((← get).tree.find path).map fun _ => ()
  content path := return (← get).tree.content path
  makeDirectory path := Session.change (·.makeDirectory path)
  create path := Session.change (·.write path [])
  save path content := Session.change (·.write path content)

end RecordStore
