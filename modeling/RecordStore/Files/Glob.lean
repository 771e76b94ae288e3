import RecordStore.Files.Path

/-!
# Patterns of file names

A pattern is a path whose components may hold wildcards. An asterisk stands for any text, a
question mark for a character and brackets for a character of some ranges; two asterisks alone in
a component stand for any way down.

## Main definitions

* `Glob` — a pattern.
* `Glob.read` — the pattern of a text.
* `Glob.Token.matches` — whether a name fits the tokens of a component.
-/

namespace RecordStore

namespace Glob

/-! ## Faults -/

inductive Fault
  | asterisks (position : Nat)
  | wayDown (position : Nat)
  | range (position : Nat)
  deriving DecidableEq, Repr

def Fault.position : Fault → Nat
  | asterisks position | wayDown position | range position => position

def Fault.cause : Fault → String
  | asterisks _ => "wildcards are either regular \x60*\x60 or recursive \x60**\x60"
  | wayDown _ => "recursive wildcards must form a single path component"
  | range _ => "invalid range pattern"

def Fault.message (fault : Fault) : String :=
  s!"Pattern syntax error near position {fault.position}: {fault.cause}"

/-! ## Tokens -/

inductive Token
  | char (c : Char)
  | anyChar
  | anyText
  | anyWayDown
  /-- A character within some ranges, or within none of them. -/
  | range (inside : Bool) (ranges : List (Char × Char))
  deriving DecidableEq, Repr

/-- The ranges between brackets; a character alone is a range of its own. -/
def readRanges : List Char → List (Char × Char)
  | low :: '-' :: high :: rest => (low, high) :: readRanges rest
  | c :: rest => (c, c) :: readRanges rest
  | [] => []

/-- What stands before the next closing bracket, and what behind it. The first character is not
taken for that bracket. -/
def closeBracket? : List Char → Option (List Char × List Char)
  | [] => none
  | first :: rest =>
    if rest.contains ']' then
      some (first :: rest.takeWhile (· != ']'), (rest.dropWhile (· != ']')).drop 1)
    else none

def openBracket? : List Char → Option (Bool × List Char × List Char)
  | '!' :: rest => (closeBracket? rest).map (false, ·)
  | rest => (closeBracket? rest).map (true, ·)

theorem length_closeBracket?_lt {input inner rest : List Char}
    (h : closeBracket? input = some (inner, rest)) : rest.length < input.length := by
  cases input with
  | nil => simp [closeBracket?] at h
  | cons first tail =>
    simp only [closeBracket?] at h
    split at h
    · simp only [Option.some.injEq, Prod.mk.injEq] at h
      have := (List.dropWhile_suffix (l := tail) (· != ']')).length_le
      simp [← h.2]
      omega
    · simp at h

theorem length_openBracket?_lt {input inner rest : List Char} {inside : Bool}
    (h : openBracket? input = some (inside, inner, rest)) : rest.length < input.length := by
  unfold openBracket? at h
  split at h
  · simp only [Option.map_eq_some_iff, Prod.mk.injEq] at h
    obtain ⟨_, hc, -, rfl⟩ := h
    exact Nat.lt_succ_of_lt (length_closeBracket?_lt hc)
  · simp only [Option.map_eq_some_iff, Prod.mk.injEq] at h
    obtain ⟨_, hc, -, rfl⟩ := h
    exact length_closeBracket?_lt hc

def readTokens (position : Nat) (before : Option Char) (text : List Char) :
    Except Fault (List Token) :=
  match text with
  | [] => .ok []
  | '*' :: '*' :: '*' :: _ => .error (.asterisks (position + 2))
  | '*' :: '*' :: rest =>
    if before.isSome && before != some '/' then .error (.wayDown (position - 1))
    else
      match rest with
      | [] => .ok [.anyWayDown]
      | '/' :: rest => (readTokens (position + 3) (some '/') rest).map (.anyWayDown :: ·)
      | _ => .error (.wayDown (position + 2))
  | '*' :: rest => (readTokens (position + 1) (some '*') rest).map (.anyText :: ·)
  | '?' :: rest => (readTokens (position + 1) (some '?') rest).map (.anyChar :: ·)
  | '[' :: rest =>
    match _h : openBracket? rest with
    | none => .error (.range position)
    | some (inside, inner, behind) =>
      let next := position + 1 + (rest.length - behind.length)
      (readTokens next (some ']') behind).map (.range inside (readRanges inner) :: ·)
  | c :: rest => (readTokens (position + 1) (some c) rest).map (.char c :: ·)
termination_by text.length
decreasing_by
  all_goals simp only [List.length_cons]
  all_goals first
    | omega
    | exact Nat.lt_succ_of_lt (length_openBracket?_lt _h)

/-! ## Matching -/

namespace Token

def isText : Token → Bool
  | anyText | anyWayDown => true
  | _ => false

def fits : Token → Char → Bool
  | char expected, c => c = expected
  | range inside ranges, c => (ranges.any fun (low, high) => low ≤ c && c ≤ high) = inside
  | _, _ => true

def endings : List Char → List (List Char)
  | [] => [[]]
  | c :: rest => (c :: rest) :: endings rest

/-- What can be left of a name behind a token, from what can be left before it. Both begin with
the longest rest, of which the others are endings, so it alone decides what any text leaves. -/
def behind (rests : List (List Char)) (token : Token) : List (List Char) :=
  if token.isText then (rests.head?.map endings).getD []
  else
    rests.filterMap fun
      | c :: rest => if token.fits c then some rest else none
      | [] => none

def «matches» (tokens : List Token) (name : List Char) : Bool :=
  (tokens.foldl behind [name]).any (·.isEmpty)

end Token

/-! ## Components -/

inductive Part
  /-- Any way down, also none. -/
  | wayDown
  | literal (name : String)
  | wildcards (tokens : List Token)
  deriving DecidableEq, Repr

def literal? (tokens : List Token) : Option String :=
  let char? : Token → Option Char
    | .char c => some c
    | _ => none
  (tokens.mapM char?).map String.ofList

def readPart (text : String) : Except Fault Part := do
  let tokens ← readTokens 0 none text.toList
  if tokens = [.anyWayDown] then return .wayDown
  match literal? tokens with
  | some name => return .literal name
  | none => return .wildcards tokens

def mergeWays : List Part → List Part
  | .wayDown :: .wayDown :: rest => mergeWays (.wayDown :: rest)
  | part :: rest => part :: mergeWays rest
  | [] => []

end Glob

structure Glob where
  /-- Whether paths start at the root. -/
  absolute : Bool
  parts : List Glob.Part
  /-- Whether only directories fit, since the pattern ends in a slash. -/
  directories : Bool
  deriving DecidableEq, Repr

namespace Glob

def isPattern (text : String) : Bool := text.any fun c => c = '*' || c = '?' || c = '['

/-- The pattern of a text. Its wildcards must be well formed in the text as a whole and in each
component alone. -/
def read (text : String) : Except Fault Glob := do
  let _ ← readTokens 0 none text.toList
  let absolute := text.startsWith "/"
  let names := (if absolute then (text.drop 1).toString else text).splitOn "/"
  let names := if names.getLast? = some "" then names.dropLast else names
  let parts ← names.mapM readPart
  return { absolute, parts := mergeWays parts, directories := text.endsWith "/" }

end Glob

end RecordStore
