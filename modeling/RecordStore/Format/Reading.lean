/-!
# Readings of separator text

Separator text is read in units: a plain character, a backslash with any character, or a
hexadecimal escape of four characters. A backslash with `x` can be a unit by itself or begin a
hexadecimal escape, so a text may have several readings; the longer unit is preferred as long as
the rest of the text can still be read. From where it can be read is found from its end on.

## Main definitions

* `isPlain`, `isWeak` — which characters are units of their own.
* `Places` — from where in a unit a text can be read to its end.
* `annotate` — the characters of a text, each with what holds of the text behind it.
* `readUnits` — the longest stretch of units in the preferred reading.
-/

namespace RecordStore.Format

/-- A character that separator text holds as it is. -/
def isPlain (c : Char) : Bool := c != '*' && c != '(' && c != ')' && c != '\\'

/-- A plain character that is neither an ASCII letter nor a digit, so that it can stand among
primitive codes. -/
def isWeak (c : Char) : Bool := isPlain c && !c.isAlphanum

/-! ## Places -/

/-- The places in a unit from which a text can be read to its end. -/
structure Places where
  /-- Between two units. -/
  between : Bool
  /-- Behind the backslash of a unit. -/
  escaping : Bool
  /-- Two characters before the end of a hexadecimal escape. -/
  twoLeft : Bool
  /-- One character before the end of a hexadecimal escape. -/
  oneLeft : Bool
  deriving DecidableEq, Repr

namespace Places

def none : Places := ⟨false, false, false, false⟩

def atEnd : Places := ⟨true, false, false, false⟩

/-- The places of a text with a character in front, where `plain` says which are units of their
own. -/
def before (plain : Char → Bool) (c : Char) (p : Places) : Places where
  between := plain c && p.between || c = '\\' && p.escaping
  escaping := p.between || c = 'x' && p.twoLeft
  twoLeft := p.oneLeft
  oneLeft := p.between

end Places

/-- What holds of a text, found from its end on, and its characters, each with what holds of the
text behind it. -/
def annotate {α : Type} (before : Char → α → α) (atEnd : α) (text : List Char) :
    α × List (Char × α) :=
  text.foldr (fun c (a, spots) => (before c a, (c, a) :: spots)) (atEnd, [])

@[simp] theorem map_fst_annotate {α : Type} (before : Char → α → α) (atEnd : α)
    (text : List Char) : (annotate before atEnd text).2.map (·.1) = text := by
  induction text with
  | nil => rfl
  | cons c rest ih => exact congrArg (c :: ·) ih

theorem length_annotate {α : Type} (before : Char → α → α) (atEnd : α) (text : List Char) :
    (annotate before atEnd text).2.length = text.length := by
  rw [← List.length_map (·.1), map_fst_annotate]

/-! ## Units -/

section

variable {α : Type} (char : α → Char) (plain : Char → Bool) (viable : α → Bool)

/-- The length of the unit in front, if there is one. A hexadecimal escape is taken whole if its
last character is viable. -/
def unitLength : List α → Nat
  | a :: b :: _ :: d :: _ =>
    if char a = '\\' then if char b = 'x' && viable d then 4 else 2
    else if plain (char a) then 1 else 0
  | a :: _ :: _ => if char a = '\\' then 2 else if plain (char a) then 1 else 0
  | [a] => if plain (char a) then 1 else 0
  | [] => 0

theorem unitLength_le (text : List α) : unitLength char plain viable text ≤ text.length := by
  unfold unitLength
  split <;> repeat' split
  all_goals simp

/-- Units from the start of a text up to the first character that begins none, and the rest. -/
def readUnits (text : List α) : List Char × List α :=
  let length := unitLength char plain viable text
  if _h : length = 0 then ([], text)
  else
    let (units, rest) := readUnits (text.drop length)
    ((text.take length).map char ++ units, rest)
termination_by text.length
decreasing_by
  have := unitLength_le char plain viable text
  simp only [List.length_drop]
  omega

/-- Reading units splits a text in two. -/
theorem append_readUnits (text : List α) :
    (readUnits char plain viable text).1 ++ (readUnits char plain viable text).2.map char =
      text.map char := by
  fun_induction readUnits char plain viable text with
  | case1 => rfl
  | case2 text length h units rest hr ih =>
    rw [hr] at ih
    rw [List.append_assoc, ih, ← List.map_append, List.take_append_drop]

theorem length_readUnits_le (text : List α) :
    (readUnits char plain viable text).2.length ≤ text.length := by
  have := congrArg List.length (append_readUnits char plain viable text)
  simp only [List.length_append, List.length_map] at this
  omega

end

/-- Units in the reading that always takes hexadecimal escapes whole. -/
def readGreedy (plain : Char → Bool) (text : List Char) : List Char × List Char :=
  readUnits id plain (fun _ => true) text

theorem append_readGreedy (plain : Char → Bool) (text : List Char) :
    (readGreedy plain text).1 ++ (readGreedy plain text).2 = text := by
  simpa [readGreedy] using append_readUnits id plain (fun _ => true) text

theorem length_readGreedy_le (plain : Char → Bool) (text : List Char) :
    (readGreedy plain text).2.length ≤ text.length :=
  length_readUnits_le ..

end RecordStore.Format
