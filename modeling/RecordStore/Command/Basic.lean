import RecordStore.Command.Arguments

/-!
# Commands

A command builds a container file, prints instances of container files, looks keys up in one, or
prints a schema.

## Main definitions

* `BuildOptions`, `ReadOptions`, `LookupOptions` — what commands are told.
* `Command` — the commands.
* `Command.ofArguments?` — the command of a command line.
-/

namespace RecordStore

open Arguments (Item)

/-! ## Values -/

def once {α : Type} (old : Option α) (value : α) : Option (Option α) :=
  if old.isNone then some (some value) else none

def pathValue? (text : String) : Option String := if text = "" then none else some text

/-- A decimal number of 64 bits; a plus sign may come first. -/
def wordValue? (text : String) : Option UInt64 :=
  let digits := match text.toList with
    | '+' :: digits => digits
    | digits => digits
  if digits.isEmpty || !digits.all Char.isDigit then none
  else
    let n := digits.foldl (fun n c => 10 * n + (c.toNat - 48)) 0
    if n < UInt64.size then some (UInt64.ofNat n) else none

/-! ## Options -/

structure BuildOptions where
  format : Option String
  separator : Option String
  disk : Bool
  tmpdir : Option String
  config : Option String
  out : Option String
  input : Option String
  deriving DecidableEq, Repr

namespace BuildOptions

def initial : BuildOptions := ⟨none, none, false, none, none, none, none⟩

def flags : List Flag := [.format, .separator, .disk, .tmpdir, .config, .out]

/-- Adds an item; each flag and the input may be given once. -/
def add (o : BuildOptions) : Item → Option BuildOptions
  | .setting .format value => return { o with format := ← once o.format value }
  | .setting .separator value => return { o with separator := ← once o.separator value }
  | .setting .tmpdir value => return { o with tmpdir := ← once o.tmpdir (← pathValue? value) }
  | .setting .config value => return { o with config := ← once o.config (← pathValue? value) }
  | .setting .out value => return { o with out := ← once o.out (← pathValue? value) }
  | .switch .disk => if o.disk then none else some { o with disk := true }
  | .operand value => return { o with input := ← once o.input (← pathValue? value) }
  | _ => none

end BuildOptions

structure ReadOptions where
  format : Option String
  /-- The only instance to print. -/
  index : Option UInt64
  /-- Paths and patterns of paths. -/
  inputs : List String
  deriving DecidableEq, Repr

namespace ReadOptions

def initial : ReadOptions := ⟨none, none, []⟩

def flags : List Flag := [.format, .index]

def add (o : ReadOptions) : Item → Option ReadOptions
  | .setting .format value => return { o with format := ← once o.format value }
  | .setting .index value => return { o with index := ← once o.index (← wordValue? value) }
  | .operand value => some { o with inputs := o.inputs ++ [value] }
  | _ => none

end ReadOptions

structure LookupOptions where
  format : Option String
  archive : String
  deriving DecidableEq, Repr

structure FormatOptions where
  format : Option String
  operand : Option String
  deriving DecidableEq, Repr

namespace FormatOptions

def initial : FormatOptions := ⟨none, none⟩

def flags : List Flag := [.format]

def add (o : FormatOptions) : Item → Option FormatOptions
  | .setting .format value => return { o with format := ← once o.format value }
  | .operand value => return { o with operand := ← once o.operand (← pathValue? value) }
  | _ => none

end FormatOptions

def addFormat (format : Option String) : Item → Option (Option String)
  | .setting .format value => once format value
  | _ => none

/-! ## Commands -/

inductive Command
  | build (options : BuildOptions)
  | read (options : ReadOptions)
  | lookup (options : LookupOptions)
  | schema (format : Option String)
  | version
  | help
  deriving DecidableEq, Repr

namespace Command

/-- The command that the items make; items before a call for help must be right all the same. -/
def ofItems? {α : Type} (start : α) (add : α → Item → Option α) (make : α → Option Command)
    (items : List Item) : Option Command := do
  let options ← (items.filter (· != .help)).foldlM add start
  if items.contains .help then return help else make options

def names : List String := ["build", "read", "lookup", "schema", "help"]

def named? (name : String) (arguments : List String) : Option Command :=
  match name with
  | "build" => do
    let items ← Arguments.items BuildOptions.flags arguments
    ofItems? .initial BuildOptions.add (fun o => some (build o)) items
  | "read" => do
    let items ← Arguments.items ReadOptions.flags arguments
    ofItems? .initial ReadOptions.add
      (fun o => if o.inputs.isEmpty then none else some (read o)) items
  | "lookup" => do
    let items ← Arguments.items FormatOptions.flags arguments
    ofItems? .initial FormatOptions.add (fun o => o.operand.map fun path => lookup ⟨o.format, path⟩)
      items
  | "schema" => do
    let items ← Arguments.items FormatOptions.flags arguments
    ofItems? none addFormat (fun format => some (schema format)) items
  | "help" =>
    match arguments with
    | [] => some help
    | [topic] => if names.contains topic then some help else none
    | _ => none
  | _ => none

def ofArguments? : List String → Option Command
  | [] => none
  | first :: arguments =>
    match Arguments.form first with
    | .plain => named? first arguments
    | .long "version" none | .short 'V' _ => some version
    | .long "help" none | .short 'h' _ => some help
    | _ => none

end Command

end RecordStore
