/-!
# Arguments of a command line

Arguments are flags, values of flags and operands. A flag is given by its name after two dashes
or by its letter after one; its value follows in the same argument or in the next. Behind two
dashes alone everything is an operand.

## Main definitions

* `Flag` — the flags.
* `Arguments.items` — what the arguments of a command say.
-/

namespace RecordStore

inductive Flag
  | format
  | separator
  | disk
  | tmpdir
  | config
  | out
  | index
  deriving DecidableEq, Repr

namespace Flag

def name : Flag → String
  | format => "format"
  | separator => "separator"
  | disk => "disk"
  | tmpdir => "tmpdir"
  | config => "config"
  | out => "out"
  | index => "instance"

def letter? : Flag → Option Char
  | format => some 'f'
  | separator => some 's'
  | out => some 'o'
  | disk | tmpdir | config | index => none

def hasValue : Flag → Bool
  | disk => false
  | _ => true

end Flag

namespace Arguments

inductive Item
  | switch (flag : Flag)
  | setting (flag : Flag) (value : String)
  | operand (value : String)
  /-- Asks for help, whatever follows. -/
  | help
  deriving DecidableEq, Repr

/-- What an argument looks like by its dashes. One dash alone is a plain value. -/
inductive Form
  | dashes
  | long (name : String) (attached : Option String)
  | short (letter : Char) (attached : Option String)
  | plain
  deriving DecidableEq, Repr

def attachedTo : List Char → Option String
  | [] => none
  | '=' :: value => some (String.ofList value)
  | value => some (String.ofList value)

def form (argument : String) : Form :=
  match argument.toList with
  | ['-', '-'] => .dashes
  | '-' :: '-' :: text =>
    let name := text.takeWhile (· != '=')
    .long (String.ofList name)
      (if text.contains '=' then some (String.ofList (text.drop (name.length + 1))) else none)
  | '-' :: letter :: text => .short letter (attachedTo text)
  | _ => .plain

/-- A flag with the value attached to it, if it takes one, or with the next argument, which must
be plain. Gives the arguments that are left. -/
def takeValue (flag : Flag) (attached : Option String) (rest : List String) :
    Option (Item × List String) :=
  match flag.hasValue, attached, rest with
  | false, none, rest => some (.switch flag, rest)
  | false, some _, _ => none
  | true, some value, rest => some (.setting flag value, rest)
  | true, none, value :: rest =>
    if form value = .plain then some (.setting flag value, rest) else none
  | true, none, [] => none

theorem length_takeValue_le {flag : Flag} {attached : Option String} {rest left : List String}
    {item : Item} (h : takeValue flag attached rest = some (item, left)) :
    left.length ≤ rest.length := by
  unfold takeValue at h
  split at h
  · simp_all
  · simp at h
  · simp_all
  · split at h
    · simp only [Option.some.injEq, Prod.mk.injEq] at h
      simp [← h.2]
    · simp at h
  · simp at h

/-- What the arguments of a command with some flags say, if every flag is one of these and has a
value where it takes one. -/
def items (flags : List Flag) (arguments : List String) : Option (List Item) :=
  match arguments with
  | [] => some []
  | argument :: rest =>
    match form argument with
    | .dashes => some (rest.map .operand)
    | .plain => (items flags rest).map (.operand argument :: ·)
    | .long "help" none | .short 'h' _ => some [.help]
    | .long name attached =>
      match flags.find? (·.name = name) with
      | none => none
      | some flag =>
        match _h : takeValue flag attached rest with
        | none => none
        | some (item, left) => (items flags left).map (item :: ·)
    | .short letter attached =>
      match flags.find? (·.letter? = some letter) with
      | none => none
      | some flag =>
        match _h : takeValue flag attached rest with
        | none => none
        | some (item, left) => (items flags left).map (item :: ·)
termination_by arguments.length
decreasing_by
  all_goals simp only [List.length_cons]
  all_goals first
    | omega
    | exact Nat.lt_succ_of_le (length_takeValue_le _h)

end Arguments

end RecordStore
