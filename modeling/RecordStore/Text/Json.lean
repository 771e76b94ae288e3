import RecordStore.Text.Escape

/-!
# Indented JSON text

A JSON value is built from its parts as a function of the level at which it stands, so the text
comes out with two blanks per level and nothing has to be moved afterwards.

## Main definitions

* `Json.Text` — a value, ready to be placed at a level.
* `Json.text`, `Json.array`, `Json.object` and others — the parts.
* `Json.Text.render` — the text of a value at the outermost level.
-/

namespace RecordStore.Json

/-- The text of a value that stands at a given level. -/
abbrev Text := (level : Nat) → String

def Text.render (value : Text) : String := value 0

def stringChar (c : Char) : List Char :=
  if c = '\x22' || c = '\\' then ['\\', c]
  else if c = '\x08' then ['\\', 'b']
  else if c = '\x0c' then ['\\', 'f']
  else if c = '\n' then ['\\', 'n']
  else if c = '\r' then ['\\', 'r']
  else if c = '\t' then ['\\', 't']
  else if c.toNat < 0x20 then
    ['\\', 'u', '0', '0', Escape.hexDigit (c.toNat / 16), Escape.hexDigit (c.toNat % 16)]
  else [c]

def quoted (s : String) : String :=
  String.ofList ('\x22' :: s.toList.flatMap stringChar ++ ['\x22'])

def null : Text := fun _ => "null"

def bool (b : Bool) : Text := fun _ => if b then "true" else "false"

def number (n : Nat) : Text := fun _ => toString n

def text (s : String) : Text := fun _ => quoted s

def newLine (level : Nat) : String := String.ofList ('\n' :: List.replicate (2 * level) ' ')

/-- Items on lines of their own between two brackets; no items leave the brackets together. -/
def bracketed (opening closing : String) (items : List Text) : Text := fun level =>
  if items.isEmpty then opening ++ closing
  else
    opening ++ ",".intercalate (items.map fun item => newLine (level + 1) ++ item (level + 1)) ++
      newLine level ++ closing

def array (items : List Text) : Text := bracketed "[" "]" items

def object (fields : List (String × Text)) : Text :=
  bracketed "\x7b" "\x7d" (fields.map fun (name, value) level => quoted name ++ ": " ++ value level)

end RecordStore.Json
