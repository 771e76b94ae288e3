import RecordStore.Text.JsonString

/-!
# Build configurations

A configuration is a JSON object that says where parts of a build are staged, and inside which
directory. It may also be an array of the same settings in their order. Both are read from left
to right, so the first thing wrong decides the path that is reported.

## Main definitions

* `Config` — a configuration.
* `Config.Path` — a place inside the JSON text.
* `Config.read` — the configuration of a JSON text, or the place of its first fault.
-/

namespace RecordStore

inductive StagingMode
  | memory
  | disk
  deriving DecidableEq, Repr

structure Config where
  mode : StagingMode
  /-- The directory inside which a directory for staging is made. -/
  parent : Option String
  deriving DecidableEq, Repr

namespace Config

/-- Everything is staged in memory unless a configuration says otherwise. -/
def standard : Config := ⟨.memory, none⟩

/-! ## Places -/

inductive Segment
  | key (name : String)
  | index (i : Nat)
  /-- A key that cannot be read. -/
  | unreadable
  deriving DecidableEq, Repr

def Segment.text : Segment → String
  | key name => name
  | index i => s!"[{i}]"
  | unreadable => "?"

abbrev Path := List Segment

/-- The segments behind the first, with dots before all but indices. -/
def Path.tail : Path → String
  | [] => ""
  | .index i :: rest => (Segment.index i).text ++ Path.tail rest
  | segment :: rest => "." ++ segment.text ++ Path.tail rest

/-- The printed form; the outermost value is a dot. -/
def Path.text : Path → String
  | [] => "."
  | segment :: rest => segment.text ++ Path.tail rest

/-! ## Reading -/

/-- Reading from the front of a text. A fault is the place of what is wrong. -/
abbrev Reading := StateT Bytes (Except Path)

namespace Reading

def fault {α : Type} : Reading α := throw []

def within {α : Type} (segment : Segment) (read : Reading α) : Reading α :=
  fun input => (read input).mapError (segment :: ·)

def isBlank (b : UInt8) : Bool := b = 0x20 || b = 0x0a || b = 0x09 || b = 0x0d

/-- The next byte behind blanks, which is not taken. -/
def peek : Reading (Option UInt8) := do
  modify (·.dropWhile isBlank)
  return (← get).head?

def skip : Reading Unit := modify (·.drop 1)

def expect (b : UInt8) : Reading Unit := do
  if (← peek) = some b then skip else fault

def string : Reading String := do
  expect 0x22
  match Json.readString? (← get) with
  | some (text, rest) =>
    set rest
    return text
  | none => fault

def null : Reading Unit := do
  let _ ← peek
  let word := Bytes.ofText "null"
  if word.isPrefixOf (← get) then modify (·.drop word.length) else fault

end Reading

open Reading

/-! ## Settings -/

def modeNamed (name : String) : Reading StagingMode :=
  match name with
  | "memory" => return .memory
  | "disk" => return .disk
  | _ => fault

/-- A mode is a string, or an object with `null` behind the name. -/
def readMode : Reading StagingMode := do
  if (← peek) = some 0x7b then
    skip
    let name ← string
    let mode ← modeNamed name
    expect 0x3a
    within (.key name) null
    expect 0x7d
    return mode
  else
    modeNamed (← string)

def readParent : Reading (Option String) := do
  if (← peek) = some 0x6e then
    null
    return none
  else
    return some (← string)

inductive Setting
  | staging
  | tmpdir
  deriving DecidableEq, Repr

namespace Setting

def all : List Setting := [staging, tmpdir]

def name : Setting → String
  | staging => "staging"
  | tmpdir => "tmpdir"

def named? (name : String) : Option Setting := all.find? (·.name = name)

def read (config : Config) : Setting → Reading Config
  | staging => return { config with mode := ← readMode }
  | tmpdir => return { config with parent := ← readParent }

end Setting

/-! ## Objects and arrays -/

/-- The next key of an object, or nothing at its end. Keys but the first follow a comma. -/
def readKey? (first : Bool) : Reading (Option String) :=
  within .unreadable do
    if (← peek) = some 0x7d then
      skip
      return none
    unless first do expect 0x2c
    return some (← string)

/-- Reads the members of an object, each setting at most once. -/
def readMembers (config : Config) (missing : List Setting) (first : Bool) : Reading Config := do
  match ← readKey? first with
  | none => return config
  | some name =>
    match Setting.named? name with
    | none => within (.key name) fault
    | some setting =>
      if _h : setting ∈ missing then
        expect 0x3a
        let config ← within (.key name) (setting.read config)
        readMembers config (missing.erase setting) false
      else fault
termination_by missing.length
decreasing_by
  have := List.length_pos_of_mem _h
  rw [List.length_erase_of_mem _h]
  omega

/-- Whether an array goes on. Elements but the first follow a comma, and behind a comma there must
be something that does not end the array. -/
def hasElement (first : Bool) : Reading Bool := do
  if (← peek) = some 0x5d then return false
  unless first do
    expect 0x2c
    if (← peek) = some 0x5d then fault
  if (← peek).isNone then fault
  return true

def readElements (config : Config) (index : Nat) : (settings : List Setting) → Reading Config
  | [] => do
    expect 0x5d
    return config
  | setting :: settings => do
    if ← hasElement (index = 0) then
      let config ← within (.index index) (setting.read config)
      readElements config (index + 1) settings
    else
      expect 0x5d
      return config

/-- The configuration at the front of a text. What follows it does not count. -/
def readAny : Reading Config := do
  match ← peek with
  | some 0x7b =>
    skip
    readMembers standard Setting.all true
  | some 0x5b =>
    skip
    readElements standard 0 Setting.all
  | _ => fault

def read (text : Bytes) : Except Path Config := (readAny text).map (·.1)

end Config

end RecordStore
