import RecordStore.Format.TypeSequence

/-!
# Heads of containers

A sequence is written `V(element)sep` and a keyed container `T(key)sep` or `H(key)sep`, with
`(value)sep` behind it for a map. Arguments, each behind a comma, may follow the letter. This
module takes such texts apart; their parts are read elsewhere.

## Main definitions

* `splitArgs?` — the arguments and the text behind the opening parenthesis.
* `splitBody?` — the body of a parenthesis and the separator text behind it.
* `VectorText.read?`, `SetText.read?`, `MapText.read?` — the parts of the three forms.
-/

namespace RecordStore.Format

/-! ## Arguments -/

def splitCommas : List Char → List (List Char)
  | [] => [[]]
  | c :: rest =>
    if c = ',' then [] :: splitCommas rest
    else
      match splitCommas rest with
      | [] => [[c]]
      | piece :: pieces => (c :: piece) :: pieces

/-- The arguments of a text that is empty or a row of commas each with a nonempty text behind
it. -/
def readArgs? : List Char → Option (List (List Char))
  | [] => some []
  | ',' :: rest =>
    let args := splitCommas rest
    if args.all fun arg => !arg.isEmpty && !arg.contains ')' then some args else none
  | _ :: _ => none

/-- The arguments before the first opening parenthesis, and the text behind it. -/
def splitArgs? (text : List Char) : Option (List String × List Char) :=
  match text.dropWhile (· != '('), readArgs? (text.takeWhile (· != '(')) with
  | _ :: rest, some args => some (args.map String.ofList, rest)
  | _, _ => none

/-! ## Bodies -/

/-- The places in `body ) separator` from which a text can be read to its end. The body holds any
characters, and at least one. -/
structure BodyPlaces where
  /-- Before the body. -/
  opened : Bool
  /-- Behind a character of the body. -/
  inside : Bool
  /-- Behind the closing parenthesis. -/
  closed : Bool
  /-- In the separator text behind its first unit. -/
  sep : Places
  deriving DecidableEq, Repr

namespace BodyPlaces

def none : BodyPlaces := ⟨false, false, false, .none⟩

def atEnd : BodyPlaces := ⟨false, false, false, .atEnd⟩

def before (c : Char) (p : BodyPlaces) : BodyPlaces :=
  let sep := p.sep.before isPlain c
  { opened := p.inside
    inside := p.inside || c = ')' && p.closed
    closed := sep.between
    sep }

end BodyPlaces

/-- Cuts a text at the last closing parenthesis with something before it that is marked as
closing. -/
def splitBody? {α : Type} (char : α → Char) (closing : α → Bool) :
    List α → Option (List Char × List Char)
  | [] => none
  | a :: rest =>
    match splitBody? char closing rest with
    | some (body, sep) => some (char a :: body, sep)
    | none =>
      match rest with
      | b :: sep => if char b = ')' && closing b then some ([char a], sep.map char) else none
      | [] => none

theorem eq_of_splitBody? {α : Type} {char : α → Char} {closing : α → Bool} {text : List α}
    {body sep : List Char} (h : splitBody? char closing text = some (body, sep)) :
    text.map char = body ++ ')' :: sep := by
  induction text generalizing body with
  | nil => simp [splitBody?] at h
  | cons a rest ih =>
    simp only [splitBody?] at h
    split at h
    · rename_i body' sep' hr
      simp only [Option.some.injEq, Prod.mk.injEq] at h
      obtain ⟨rfl, rfl⟩ := h
      simp [ih hr]
    · split at h
      · split at h
        · rename_i hc
          simp only [Bool.and_eq_true, decide_eq_true_eq] at hc
          simp only [Option.some.injEq, Prod.mk.injEq] at h
          obtain ⟨rfl, rfl⟩ := h
          simp [hc.1]
        · simp at h
      · simp at h

theorem length_splitBody?_lt {α : Type} {char : α → Char} {closing : α → Bool} {text : List α}
    {body sep : List Char} (h : splitBody? char closing text = some (body, sep)) :
    body.length < text.length := by
  have := congrArg List.length (eq_of_splitBody? h)
  simp only [List.length_map, List.length_append, List.length_cons] at this
  omega

/-! ## The three forms -/

/-- The parts of `V args ( element ) sep`. -/
structure VectorText where
  args : List String
  element : List Char
  sep : List Char
  deriving DecidableEq, Repr

def VectorText.read? : List Char → Option VectorText
  | 'V' :: text => do
    let (args, rest) ← splitArgs? text
    let (_, spots) := annotate BodyPlaces.before .atEnd rest
    let (element, sep) ← splitBody? (·.1) (·.2.closed) spots
    return { args, element, sep }
  | _ => none

/-- The places in `key ) separator ( value ) separator`, or in the part of it before the value,
from which a text can be read to its end. -/
structure KeyPlaces where
  key : SequencePlaces
  /-- Behind the parenthesis that closes the key. -/
  closed : Bool
  /-- In the separator text of the key behind its first unit. -/
  sep : Places
  value : BodyPlaces
  deriving DecidableEq, Repr

namespace KeyPlaces

def atSetEnd : KeyPlaces := ⟨.none, false, .atEnd, .none⟩

def atMapEnd : KeyPlaces := ⟨.none, false, .none, .atEnd⟩

def before (c : Char) (p : KeyPlaces) : KeyPlaces :=
  let key := p.key.before c
  let closing := c = ')' && p.closed
  let sep := p.sep.before isPlain c
  { key := { key with
      body := { key.body with between := key.body.between || closing }
      starred := key.starred || closing }
    closed := sep.between
    sep := { sep with between := sep.between || c = '(' && p.value.opened }
    value := p.value.before c }

end KeyPlaces

/-- The key, its separator text and what follows, in the preferred reading. -/
def splitKey (spots : List (Char × KeyPlaces)) :
    List Char × List Char × List (Char × KeyPlaces) :=
  let (lead, rest) := readUnits (·.1) isWeak (·.2.key.lead.between) spots
  let (body, rest) :=
    readUnits (·.1) (fun c => isWeak c || isCode c) (·.2.key.body.between) rest
  let star := (rest.take 1).map (·.1) |>.filter (· = '*')
  let (sep, rest) := readUnits (·.1) isPlain (·.2.sep.between) (rest.drop (star.length + 1))
  (lead ++ body ++ star, sep, rest)

/-- The letter of a keyed container says whether its keys are kept in order. -/
def isOrdered? : Char → Option Bool
  | 'T' => some true
  | 'H' => some false
  | _ => none

/-- The parts of `T args ( key ) sep`. -/
structure SetText where
  ordered : Bool
  args : List String
  key : List Char
  sep : List Char
  deriving DecidableEq, Repr

def SetText.read? : List Char → Option SetText
  | [] => none
  | c :: text => do
    let ordered ← isOrdered? c
    let (args, rest) ← splitArgs? text
    let (places, spots) := annotate KeyPlaces.before .atSetEnd rest
    if places.key.lead.between then
      let (key, sep, _) := splitKey spots
      return { ordered, args, key, sep }
    else none

/-- The parts of `T args ( key ) keySep ( value ) sep`. -/
structure MapText where
  ordered : Bool
  args : List String
  key : List Char
  keySep : List Char
  value : List Char
  sep : List Char
  deriving DecidableEq, Repr

def MapText.read? : List Char → Option MapText
  | [] => none
  | c :: text => do
    let ordered ← isOrdered? c
    let (args, rest) ← splitArgs? text
    let (places, spots) := annotate KeyPlaces.before .atMapEnd rest
    if places.key.lead.between then
      let (key, keySep, rest) := splitKey spots
      let (value, sep) ← splitBody? (·.1) (·.2.value.closed) (rest.drop 1)
      return { ordered, args, key, keySep, value, sep }
    else none

end RecordStore.Format
