import RecordStore.Format.Reading

/-!
# Splits of a pair

A pair `P(first)sep(second)` is not told from its sides by any rule on characters alone. Every
maximal run of separator text is tried as the separator, from left to right, and the first run
with readable sides wins. Positions count bytes.

## Main definitions

* `separatorRuns` — the maximal runs.
* `Candidate` — a run with the texts of its sides.
* `search` — the first candidate whose sides are both accepted, and the sides tried until then.
* `isBalanced` — whether parentheses match.
-/

namespace RecordStore.Format

def byteLength (text : List Char) : Nat := text.foldr (fun c n => c.utf8Size + n) 0

/-- Drops `n` bytes, if that cuts no character. -/
def dropBytes? : (n : Nat) → List Char → Option (List Char)
  | 0, text => some text
  | _ + 1, [] => none
  | n + 1, c :: rest => if c.utf8Size ≤ n + 1 then dropBytes? (n + 1 - c.utf8Size) rest else none

def takeBytes? : (n : Nat) → List Char → Option (List Char)
  | 0, _ => some []
  | _ + 1, [] => none
  | n + 1, c :: rest =>
    if c.utf8Size ≤ n + 1 then (takeBytes? (n + 1 - c.utf8Size) rest).map (c :: ·) else none

def slice? (start stop : Nat) (text : List Char) : Option (List Char) :=
  (dropBytes? start text).bind (takeBytes? (stop - start))

theorem length_dropBytes?_lt {n : Nat} {text rest : List Char} (hn : 0 < n)
    (h : dropBytes? n text = some rest) : rest.length < text.length := by
  induction text generalizing n with
  | nil => cases n <;> simp_all [dropBytes?]
  | cons c tail ih =>
    cases n with
    | zero => simp at hn
    | succ n =>
      simp only [dropBytes?] at h
      split at h
      · rcases Nat.eq_zero_or_pos (n + 1 - c.utf8Size) with hz | hp
        · rw [hz] at h
          simp only [dropBytes?, Option.some.injEq] at h
          simp [h]
        · exact Nat.lt_succ_of_lt (ih hp h)
      · simp at h

theorem length_takeBytes?_le {n : Nat} {text front : List Char}
    (h : takeBytes? n text = some front) : front.length ≤ text.length := by
  induction text generalizing n front with
  | nil => cases n <;> simp_all [takeBytes?]
  | cons c tail ih =>
    cases n with
    | zero => simp_all [takeBytes?]
    | succ n =>
      simp only [takeBytes?] at h
      split at h
      · simp only [Option.map_eq_some_iff] at h
        obtain ⟨r, hr, rfl⟩ := h
        exact Nat.succ_le_succ (ih hr)
      · simp at h

theorem length_slice?_lt {start stop : Nat} {text side : List Char} (hs : 0 < start)
    (h : slice? start stop text = some side) : side.length < text.length := by
  simp only [slice?, Option.bind_eq_some_iff] at h
  obtain ⟨rest, hd, ht⟩ := h
  exact Nat.lt_of_le_of_lt (length_takeBytes?_le ht) (length_dropBytes?_lt hs hd)

/-- The maximal runs of units from left to right, each with the position of its first byte. -/
def runsFrom (offset : Nat) : List Char → List (Nat × List Char)
  | [] => []
  | c :: rest =>
    match _h : readGreedy isPlain (c :: rest) with
    | ([], _) => runsFrom (offset + c.utf8Size) rest
    | (run@(_ :: _), rest') => (offset, run) :: runsFrom (offset + byteLength run) rest'
termination_by text => text.length
decreasing_by
  · simp
  · rw [← append_readGreedy isPlain (c :: rest), _h]
    simp only [List.length_append, List.length_cons]
    omega

def separatorRuns (text : List Char) : List (Nat × List Char) := runsFrom 0 text

/-- A run of separator text with the sides of the pair it would split. The first side starts
behind two bytes and ends a byte before the run; the second starts a byte behind the run and ends
a byte before the end. -/
structure Candidate (text : List Char) where
  start : Nat
  sep : List Char
  first : List Char
  second : List Char
  first_lt : first.length < text.length
  second_lt : second.length < text.length

def Candidate.stop {text : List Char} (c : Candidate text) : Nat := c.start + byteLength c.sep

/-- The candidate of a run, unless a side would be out of place or cut a character. -/
def candidate? (text : List Char) (start : Nat) (sep : List Char) : Option (Candidate text) :=
  let stop := start + byteLength sep
  if start < 4 ∨ byteLength text < stop + 3 then none
  else
    match hf : slice? 2 (start - 1) text, hs : slice? (stop + 1) (byteLength text - 1) text with
    | some first, some second =>
      some ⟨start, sep, first, second, length_slice?_lt (by omega) hf,
        length_slice?_lt (by omega) hs⟩
    | _, _ => none

structure Split (text : List Char) (α β : Type) where
  candidate : Candidate text
  first : α
  second : β

/-- Tries runs in turn. Gives every side that was handed to a reader, with its success, and the
first split with both sides read. -/
def search {α β : Type} (text : List Char) (readFirst : Candidate text → Option α)
    (readSecond : Candidate text → α → Option β) :
    (runs : List (Nat × List Char)) → List (List Char × Bool) × Option (Split text α β)
  | [] => ([], none)
  | (start, sep) :: rest =>
    match candidate? text start sep with
    | none => search text readFirst readSecond rest
    | some c =>
      match readFirst c with
      | none =>
        let (tried, split) := search text readFirst readSecond rest
        ((c.first, false) :: tried, split)
      | some first =>
        match readSecond c first with
        | none =>
          let (tried, split) := search text readFirst readSecond rest
          ((c.first, true) :: (c.second, false) :: tried, split)
        | some second => ([(c.first, true), (c.second, true)], some ⟨c, first, second⟩)

/-! ## Parentheses -/

/-- Whether the parentheses of a text may match, when `low` to `high` of them are open before it.
Behind a backslash a parenthesis may stand for itself, so it may count or not. -/
def mayMatch (low high : Nat) (escaped : Bool) : List Char → Bool
  | [] => low = 0
  | '(' :: rest => mayMatch (if escaped then low else low + 1) (high + 1) false rest
  | ')' :: rest =>
    if escaped then mayMatch (low - 1) high false rest
    else 0 < high && mayMatch (low - 1) (high - 1) false rest
  | c :: rest => mayMatch low high (c = '\\') rest

def isBalanced (text : List Char) : Bool := mayMatch 0 0 false text

end RecordStore.Format
