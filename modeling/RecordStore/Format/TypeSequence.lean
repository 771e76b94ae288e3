import RecordStore.Format.Error
import RecordStore.Format.Reading
import RecordStore.Schema.Basic

/-!
# Type sequences

The format text of a flat node is a type sequence: separator text, then primitive codes with
separator text behind each, then perhaps a star. Letters and digits must be escaped in its
separators.

## Main definitions

* `SequencePlaces` — from where in a type sequence a text can be read to its end.
* `TypeSequence.read?` — the parts of a type sequence in the preferred reading.
* `TypeSequence.layout` — the layout of the parts.
* `parseFlat?` — the flat node of a type sequence.
-/

namespace RecordStore.Format

def isCode (c : Char) : Bool := (Prim.ofCode? c).isSome

/-! ## Places -/

structure SequencePlaces where
  /-- In the separator text before the first code. -/
  lead : Places
  /-- At or behind the first code. -/
  body : Places
  /-- Behind the star. -/
  starred : Bool
  deriving DecidableEq, Repr

namespace SequencePlaces

def none : SequencePlaces := ⟨.none, .none, false⟩

def atEnd : SequencePlaces := ⟨.none, .atEnd, true⟩

def before (c : Char) (p : SequencePlaces) : SequencePlaces :=
  let lead := p.lead.before isWeak c
  let body := p.body.before isWeak c
  let code := isCode c && p.body.between
  { lead := { lead with between := lead.between || code }
    body := { body with between := body.between || code || c = '*' && p.starred }
    starred := false }

end SequencePlaces

/-! ## Parts -/

structure TypeSequence where
  /-- The separator text before the first code. -/
  lead : List Char
  /-- The codes with their separator text. -/
  body : List Char
  starred : Bool
  deriving DecidableEq, Repr

namespace TypeSequence

def read? (text : List Char) : Option TypeSequence :=
  let (places, spots) := annotate SequencePlaces.before .atEnd text
  if places.lead.between then
    let (lead, rest) := readUnits (·.1) isWeak (·.2.lead.between) spots
    let (body, rest) := readUnits (·.1) (fun c => isWeak c || isCode c) (·.2.body.between) rest
    some ⟨lead, body, !rest.isEmpty⟩
  else none

/-- The codes of a body, each with the separator text that follows it in greedy reading.
Characters between that and the next code are passed over. -/
def codes : List Char → List (Prim × List Char)
  | [] => []
  | c :: rest =>
    match Prim.ofCode? c with
    | some prim =>
      let split := readGreedy isWeak rest
      (prim, split.1) :: codes split.2
    | none => codes rest
termination_by text => text.length
decreasing_by
  · exact Nat.lt_succ_of_le (length_readGreedy_le ..)
  · simp

/-- The shape of the parts. The separators behind codes are unescaped before the leading one. -/
def shape (parts : TypeSequence) : Except FormatError Shape := do
  let fields ← (codes parts.body).mapM fun (prim, sep) => return ⟨prim, ← unescape sep⟩
  let leading ← unescape parts.lead
  return { leading, fields }

/-- A lone field without separators is a primitive. -/
def collapse (shape : Shape) : Layout :=
  match shape.leading, shape.fields with
  | [], [⟨prim, []⟩] => .primitive prim
  | _, _ => .struct shape

def layout (parts : TypeSequence) : Except FormatError Layout := do
  let shape ← parts.shape
  return if parts.starred then .structs shape else collapse shape

end TypeSequence

def parseFlat? (text : List Char) (ordinal : Nat) : Option (Except FormatError FlatNode) :=
  (TypeSequence.read? text).map fun parts =>
    parts.layout.map fun layout => ⟨⟨ordinal, String.ofList text⟩, layout⟩

end RecordStore.Format
