import RecordStore.Proofs.PairSplits

/-!
# The search for the split of a pair

A text is told into pieces from left to right, of which each is a unit of separator text or a
character that is none. The runs that are tried are the maximal rows of units. Whatever the sides
are read with, the search hands over the sides of the runs in increasing position, and stops at the
first run with both sides read.

## Main definitions

* `Format.pieces` — the pieces of a text.
* `Format.IsMaximalRun` — the maximal rows of units, with their positions.
* `Format.IsSlice` — the part of a text between two positions.
* `Format.candidates` — the runs that have sides, in increasing position.

## Main statements

* `Format.mem_separatorRuns_iff` — the runs of a text are its maximal rows of units.
* `Format.search_leftmost` — the search finds the first run with readable sides, and tries no other.
-/

namespace RecordStore.Format

/-! ## Pieces -/

inductive Piece
  /-- A character that is a unit of separator text. -/
  | plain (c : Char)
  /-- A backslash with the character behind it. -/
  | escape (c : Char)
  /-- A backslash with an `x` and the two characters behind it. -/
  | hex (high low : Char)
  /-- A character that begins no unit. -/
  | other (c : Char)

namespace Piece

def isUnit : Piece → Bool
  | other _ => false
  | _ => true

def chars : Piece → List Char
  | plain c | other c => [c]
  | escape c => ['\\', c]
  | hex high low => ['\\', 'x', high, low]

theorem chars_ne_nil (piece : Piece) : piece.chars ≠ [] := by
  cases piece <;> simp [chars]

end Piece

/-- The pieces of a text. A backslash takes the character behind it, and two more if this one is
an `x`. -/
def pieces : List Char → List Piece
  | '\\' :: 'x' :: high :: low :: rest => .hex high low :: pieces rest
  | '\\' :: c :: rest => .escape c :: pieces rest
  | c :: rest => (if isPlain c then .plain c else .other c) :: pieces rest
  | [] => []

/-- A character that is not plain is a piece of its own, unless it is a backslash before another. -/
theorem pieces_cons_of_other {c : Char} {rest : List Char}
    (he : ∀ d rest', c = '\\' → rest = d :: rest' → False) (hp : isPlain c = false) :
    pieces (c :: rest) = .other c :: pieces rest := by
  rw [pieces]
  · rw [hp, if_neg Bool.false_ne_true]
  · rintro high low rest' rfl rfl
    exact he _ _ rfl rfl
  · exact he

def spell (row : List Piece) : List Char := row.flatMap Piece.chars

theorem spell_append (front back : List Piece) :
    spell (front ++ back) = spell front ++ spell back :=
  List.flatMap_append

theorem spell_cons (piece : Piece) (row : List Piece) :
    spell (piece :: row) = piece.chars ++ spell row :=
  List.flatMap_cons

theorem spell_ne_nil {row : List Piece} (h : row ≠ []) : spell row ≠ [] := by
  cases row with
  | nil => exact absurd rfl h
  | cons piece row => simp [spell_cons, piece.chars_ne_nil]

theorem spell_pieces (text : List Char) : spell (pieces text) = text := by
  fun_induction pieces text with
  | case1 high low rest ih => simp [spell_cons, Piece.chars, ih]
  | case2 c rest _ ih => simp [spell_cons, Piece.chars, ih]
  | case3 c rest _ _ ih =>
    rw [spell_cons, ih]
    split <;> rfl
  | case4 => rfl

theorem readGreedy_unit {unit rest : List Char} (hne : unit ≠ [])
    (h : unitLength id isPlain (fun _ => true) (unit ++ rest) = unit.length) :
    readGreedy isPlain (unit ++ rest) =
      (unit ++ (readGreedy isPlain rest).1, (readGreedy isPlain rest).2) := by
  have hlength : unit.length ≠ 0 := by simpa using hne
  rw [readGreedy, readUnits, h]
  simp [hlength, readGreedy]

/-- The row of units in front of a text, which may be empty, is what is read of it. -/
structure Leads (units : List Piece) (text rest : List Char) : Prop where
  pieces_eq : pieces text = units ++ pieces rest
  isUnit : ∀ piece ∈ units, piece.isUnit = true
  head : ∀ piece ∈ (pieces rest).head?, piece.isUnit = false
  read : readGreedy isPlain text = (spell units, rest)

theorem Leads.cons {units : List Piece} {text rest : List Char}
    (h : Leads units text rest) (piece : Piece) (hunit : piece.isUnit = true)
    (hpieces : pieces (piece.chars ++ text) = piece :: pieces text)
    (hlength : unitLength id isPlain (fun _ => true) (piece.chars ++ text) = piece.chars.length) :
    Leads (piece :: units) (piece.chars ++ text) rest where
  pieces_eq := by rw [hpieces, h.pieces_eq, List.cons_append]
  isUnit := List.forall_mem_cons.2 ⟨hunit, h.isUnit⟩
  head := h.head
  read := by rw [readGreedy_unit piece.chars_ne_nil hlength, h.read, spell_cons]

/-- Every text has a row of units in front. If there is none, the first character is a piece. -/
theorem exists_leads (text : List Char) : ∃ units rest, Leads units text rest ∧
    (units = [] → ∀ c tail, text = c :: tail → pieces text = .other c :: pieces tail) := by
  fun_induction pieces text with
  | case1 high low rest ih =>
    obtain ⟨units, rest', h, -⟩ := ih
    exact ⟨_, _, h.cons (.hex high low) rfl (by simp [Piece.chars, pieces])
      (by cases rest <;> rfl), by simp⟩
  | case2 c rest hx ih =>
    obtain ⟨units, rest', h, -⟩ := ih
    refine ⟨_, _, h.cons (.escape c) rfl (by simp [Piece.chars, pieces]) ?_, by simp⟩
    simp only [Piece.chars, List.cons_append, List.nil_append]
    unfold unitLength
    grind
  | case3 c rest hx he ih =>
    obtain ⟨units, rest', h, -⟩ := ih
    cases hp : isPlain c with
    | true =>
      refine ⟨_, _, h.cons (.plain c) rfl ?_ ?_, by simp⟩
      · simp [Piece.chars, pieces, hp]
      · have hc : c ≠ '\\' := by
          rintro rfl
          exact absurd hp (by decide)
        simp only [Piece.chars, List.cons_append, List.nil_append]
        unfold unitLength
        grind
    | false =>
      have hpieces := pieces_cons_of_other he hp
      refine ⟨[], c :: rest, ⟨rfl, by simp, ?_, ?_⟩, ?_⟩
      · simp [hpieces, Piece.isUnit]
      · have hlength : unitLength id isPlain (fun _ => true) (c :: rest) = 0 := by
          unfold unitLength
          grind
        rw [readGreedy, readUnits, hlength]
        rfl
      · rintro - d tail heq
        obtain ⟨rfl, rfl⟩ := List.cons.inj heq
        rw [if_neg Bool.false_ne_true]
  | case4 =>
    exact ⟨[], [], ⟨rfl, by simp, by simp [pieces], by rw [readGreedy, readUnits]; rfl⟩, by simp⟩

/-! ## Maximal runs -/

/-- Whether units between other pieces are a row that goes on to neither side. -/
structure IsMaximalRow (before units after : List Piece) : Prop where
  ne_nil : units ≠ []
  isUnit : ∀ piece ∈ units, piece.isUnit = true
  last : ∀ piece ∈ before.getLast?, piece.isUnit = false
  head : ∀ piece ∈ after.head?, piece.isUnit = false

/-- Whether a row of pieces holds a run, with as many bytes before it as `start` is beyond
`offset`. -/
def IsRun (offset : ℕ) (row : List Piece) (start : ℕ) (run : List Char) : Prop :=
  ∃ before units after, row = before ++ units ++ after ∧ IsMaximalRow before units after ∧
    start = offset + byteLength (spell before) ∧ run = spell units

/-- Whether a part of a text at a position is a row of units that goes on to neither side. -/
def IsMaximalRun (text : List Char) (start : ℕ) (run : List Char) : Prop :=
  IsRun 0 (pieces text) start run

/-- Pieces of which the first one is no unit do not begin with a run. -/
theorem IsMaximalRow.before_ne_nil {before units after : List Piece}
    (h : IsMaximalRow before units after)
    (hhead : ∀ piece ∈ (before ++ units ++ after).head?, piece.isUnit = false) : before ≠ [] := by
  rintro rfl
  obtain ⟨first, units, rfl⟩ := List.exists_cons_of_ne_nil h.ne_nil
  have hfirst := hhead first rfl
  simp [h.isUnit first List.mem_cons_self] at hfirst

section

variable {offset start : ℕ} {run : List Char}

theorem isRun_nil : ¬IsRun offset [] start run := by
  rintro ⟨before, units, after, hrow, hmaximal, -⟩
  have := hmaximal.ne_nil
  simp_all

theorem isRun_cons_of_other {piece : Piece} {row : List Piece} (h : piece.isUnit = false) :
    IsRun offset (piece :: row) start run ↔
      IsRun (offset + byteLength piece.chars) row start run := by
  constructor
  · rintro ⟨before, units, after, hrow, hmaximal, rfl, rfl⟩
    have hbefore := hmaximal.before_ne_nil (by simpa [← hrow] using h)
    obtain ⟨first, before, rfl⟩ := List.exists_cons_of_ne_nil hbefore
    obtain ⟨rfl, rfl⟩ := List.cons.inj hrow
    refine ⟨before, units, after, rfl, { hmaximal with last := ?_ }, ?_, rfl⟩
    · have hlast := hmaximal.last
      cases before with
      | nil => simp
      | cons second before => simpa using hlast
    · rw [spell_cons, byteLength_append, Nat.add_assoc]
  · rintro ⟨before, units, after, rfl, hmaximal, rfl, rfl⟩
    refine ⟨piece :: before, units, after, rfl, { hmaximal with last := ?_ }, ?_, rfl⟩
    · have hlast := hmaximal.last
      cases before with
      | nil => simpa using h
      | cons second before => simpa using hlast
    · rw [spell_cons, byteLength_append, Nat.add_assoc]

/-- A row of units in front is a run, and the others are behind it. -/
theorem isRun_append {units row : List Piece} (hne : units ≠ [])
    (hunit : ∀ piece ∈ units, piece.isUnit = true)
    (hrow : ∀ piece ∈ row.head?, piece.isUnit = false) :
    IsRun offset (units ++ row) start run ↔ (start = offset ∧ run = spell units) ∨
      IsRun (offset + byteLength (spell units)) row start run := by
  constructor
  · rintro ⟨before, units', after, happend, hmaximal, rfl, rfl⟩
    rcases List.eq_nil_or_concat' before with rfl | ⟨before, last, rfl⟩
    · left
      have hall := takeWhile_append_of_head hunit hrow
      rw [happend, List.nil_append, takeWhile_append_of_head hmaximal.isUnit hmaximal.head] at hall
      exact ⟨rfl, by rw [hall]⟩
    · right
      have hlast : last.isUnit = false := hmaximal.last last (by simp)
      have hnot : last ∉ units := fun hm => by simp [hunit last hm] at hlast
      -- what is before the run ends with no unit, so it ends in the row
      rw [List.append_assoc, List.append_eq_append_iff] at happend
      rcases happend with ⟨front, hfront, rfl⟩ | ⟨back, rfl, -⟩
      · have hne' : front ≠ [] := by
          rintro rfl
          rw [List.append_nil] at hfront
          exact hnot (hfront ▸ by simp)
        refine ⟨front, units', after, by simp, { hmaximal with last := ?_ }, ?_, rfl⟩
        · have hlast := hmaximal.last
          rwa [hfront, List.getLast?_append_of_ne_nil _ hne'] at hlast
        · rw [hfront, spell_append, byteLength_append, Nat.add_assoc]
      · simp at hnot
  · rintro (⟨rfl, rfl⟩ | ⟨before, units', after, rfl, hmaximal, rfl, rfl⟩)
    · exact ⟨[], units, row, rfl, ⟨hne, hunit, by simp, hrow⟩, rfl, rfl⟩
    · refine ⟨units ++ before, units', after, by simp, { hmaximal with last := ?_ }, ?_, rfl⟩
      · rw [List.getLast?_append_of_ne_nil _ (hmaximal.before_ne_nil hrow)]
        exact hmaximal.last
      · rw [spell_append, byteLength_append, Nat.add_assoc]

/-- A run of pieces of which the first one is no unit begins behind it. -/
theorem IsRun.lt {row : List Piece} (h : IsRun offset row start run)
    (hrow : ∀ piece ∈ row.head?, piece.isUnit = false) : offset < start := by
  obtain ⟨before, units, after, rfl, hmaximal, rfl, -⟩ := h
  have := byteLength_pos (spell_ne_nil (hmaximal.before_ne_nil hrow))
  omega

theorem IsMaximalRun.stop_le {text : List Char} (h : IsMaximalRun text start run) :
    start + byteLength run ≤ byteLength text := by
  obtain ⟨before, units, after, hrow, -, rfl, rfl⟩ := h
  rw [← spell_pieces text, hrow, spell_append, spell_append, byteLength_append, byteLength_append]
  omega

end

/-! ## Runs as they are found -/

section

variable {text : List Char}

/-- What is read in front of a text is its row of units; if there is none, a character of the text
is passed. -/
theorem units_of_readGreedy {c : Char} {rest run rest' : List Char}
    (h : readGreedy isPlain (c :: rest) = (run, rest')) :
    (run = [] ∧ pieces (c :: rest) = .other c :: pieces rest) ∨
      ∃ units, units ≠ [] ∧ run = spell units ∧ Leads units (c :: rest) rest' := by
  obtain ⟨units, rest'', hleads, hother⟩ := exists_leads (c :: rest)
  obtain ⟨rfl, rfl⟩ := Prod.mk.inj (h.symm.trans hleads.read)
  by_cases hunits : units = []
  · exact .inl ⟨by rw [hunits]; rfl, hother hunits c rest rfl⟩
  · exact .inr ⟨units, hunits, rfl, hleads⟩

/-- The runs that are found are the maximal rows of units. -/
theorem mem_runsFrom_iff {offset start : ℕ} {run : List Char} :
    (start, run) ∈ runsFrom offset text ↔ IsRun offset (pieces text) start run := by
  fun_induction runsFrom offset text with
  | case1 offset => simp [pieces, isRun_nil]
  | case2 offset c rest rest' hread ih =>
    rcases units_of_readGreedy hread with ⟨-, hpieces⟩ | ⟨units, hne, hspell, -⟩
    · rw [ih, hpieces, isRun_cons_of_other rfl]
      rfl
    · exact absurd hspell.symm (spell_ne_nil hne)
  | case3 offset c rest d tail rest' hread ih =>
    rcases units_of_readGreedy hread with ⟨hnil, -⟩ | ⟨units, hne, hspell, hleads⟩
    · cases hnil
    · rw [List.mem_cons, ih, hleads.pieces_eq, isRun_append hne hleads.isUnit hleads.head,
        hspell, Prod.mk.injEq]

theorem mem_separatorRuns_iff {start : ℕ} {run : List Char} :
    (start, run) ∈ separatorRuns text ↔ IsMaximalRun text start run :=
  mem_runsFrom_iff

/-- Runs are found in increasing position, and do not touch. -/
theorem pairwise_runsFrom (offset : ℕ) (text : List Char) :
    (runsFrom offset text).Pairwise fun run next => run.1 + byteLength run.2 < next.1 := by
  fun_induction runsFrom offset text with
  | case1 => exact .nil
  | case2 offset c rest rest' hread ih => exact ih
  | case3 offset c rest d tail rest' hread ih =>
    rcases units_of_readGreedy hread with ⟨hnil, -⟩ | ⟨units, hne, hspell, hleads⟩
    · cases hnil
    · refine List.pairwise_cons.2 ⟨fun next hnext => ?_, ih⟩
      exact (mem_runsFrom_iff.1 hnext).lt hleads.head

end

/-! ## Sides -/

def IsSlice (text : List Char) (start stop : ℕ) (side : List Char) : Prop :=
  ∃ front back, text = front ++ side ++ back ∧ byteLength front = start ∧
    byteLength front + byteLength side = stop

/-- A slice is found where its ends cut no character. -/
theorem slice?_eq_some_iff {start stop : ℕ} {text side : List Char} (h : start ≤ stop) :
    slice? start stop text = some side ↔ IsSlice text start stop side := by
  simp only [slice?, Option.bind_eq_some_iff, dropBytes?_eq_some_iff, takeBytes?_eq_some_iff,
    IsSlice]
  constructor
  · rintro ⟨rest, ⟨front, rfl, rfl⟩, back, rfl, hside⟩
    exact ⟨front, back, by simp, rfl, by omega⟩
  · rintro ⟨front, back, rfl, rfl, hside⟩
    exact ⟨side ++ back, ⟨front, by simp, rfl⟩, back, rfl, by omega⟩

def candidates (text : List Char) : List (Candidate text) :=
  (separatorRuns text).filterMap fun (start, sep) => candidate? text start sep

/-- Whether a run is a maximal row of units with room for the frame of a pair around it, between
sides that cut no character. -/
def IsCandidate (text : List Char) (start : ℕ) (run first second : List Char) : Prop :=
  IsMaximalRun text start run ∧ 4 ≤ start ∧ start + byteLength run + 3 ≤ byteLength text ∧
    IsSlice text 2 (start - 1) first ∧
    IsSlice text (start + byteLength run + 1) (byteLength text - 1) second

section

variable {text : List Char}

theorem mem_candidates_iff {c : Candidate text} :
    c ∈ candidates text ↔ IsCandidate text c.start c.sep c.first c.second := by
  simp only [candidates, List.mem_filterMap, Prod.exists, candidate?_eq_some_iff,
    mem_separatorRuns_iff, IsCandidate]
  constructor
  · rintro ⟨_, _, hrun, rfl, rfl, hstart, hstop, hfirst, hsecond⟩
    exact ⟨hrun, hstart, hstop, (slice?_eq_some_iff (by omega)).1 hfirst,
      (slice?_eq_some_iff (by omega)).1 hsecond⟩
  · rintro ⟨hrun, hstart, hstop, hfirst, hsecond⟩
    exact ⟨_, _, hrun, rfl, rfl, hstart, hstop, (slice?_eq_some_iff (by omega)).2 hfirst,
      (slice?_eq_some_iff (by omega)).2 hsecond⟩

/-- Every run that has sides is one of the candidates. -/
theorem exists_candidate_iff {start : ℕ} {run first second : List Char} :
    (∃ c ∈ candidates text,
      c.start = start ∧ c.sep = run ∧ c.first = first ∧ c.second = second) ↔
        IsCandidate text start run first second := by
  constructor
  · rintro ⟨c, hc, rfl, rfl, rfl, rfl⟩
    exact mem_candidates_iff.1 hc
  · rintro ⟨hrun, hstart, hstop, hfirst, hsecond⟩
    have hleft := (slice?_eq_some_iff (by omega)).2 hfirst
    have hright := (slice?_eq_some_iff (by omega)).2 hsecond
    exact ⟨⟨start, run, first, second, length_slice?_lt (by omega) hleft,
      length_slice?_lt (by omega) hright⟩,
      mem_candidates_iff.2 ⟨hrun, hstart, hstop, hfirst, hsecond⟩, rfl, rfl, rfl, rfl⟩

theorem pairwise_candidates (text : List Char) :
    (candidates text).Pairwise fun c d => c.stop < d.start := by
  refine (pairwise_runsFrom 0 text).filterMap _ ?_
  rintro ⟨start, sep⟩ ⟨start', sep'⟩ hlt c hc d hd
  obtain ⟨rfl, rfl, -⟩ := candidate?_eq_some_iff.1 hc
  obtain ⟨rfl, rfl, -⟩ := candidate?_eq_some_iff.1 hd
  exact hlt

end

/-! ## The search -/

section

variable {α β : Type} {text : List Char}

def Viable (first : List Char → Option α) (second : List Char → α → Option β)
    (c : Candidate text) : Prop :=
  ∃ a b, first c.first = some a ∧ second c.second a = some b

/-- The sides of a candidate that are handed to a reader, with its success. The second one is
handed over if the first one is read. -/
def handed (first : List Char → Option α) (second : List Char → α → Option β)
    (c : Candidate text) : List (List Char × Bool) :=
  match first c.first with
  | none => [(c.first, false)]
  | some a => [(c.first, true), (c.second, (second c.second a).isSome)]

/-- Whether a search has found the first viable one of candidates, and has handed over the sides of
this one and of those before it; or the sides of all if none is viable. -/
def FindsFirst (first : List Char → Option α) (second : List Char → α → Option β)
    (row : List (Candidate text))
    (found : List (List Char × Bool) × Option (Split text α β)) : Prop :=
  (∃ passed c rest a b, row = passed ++ c :: rest ∧ (∀ d ∈ passed, ¬Viable first second d) ∧
    first c.first = some a ∧ second c.second a = some b ∧
    found = (passed.flatMap (handed first second) ++ [(c.first, true), (c.second, true)],
      some ⟨c, a, b⟩)) ∨
  ((∀ d ∈ row, ¬Viable first second d) ∧ found = (row.flatMap (handed first second), none))

variable {first : List Char → Option α} {second : List Char → α → Option β}
  {row : List (Candidate text)} {found : List (List Char × Bool) × Option (Split text α β)}

theorem FindsFirst.nil :
    FindsFirst first second ([] : List (Candidate text)) ([], none) :=
  .inr ⟨by simp, rfl⟩

theorem FindsFirst.cons {c : Candidate text} (h : FindsFirst first second row found)
    (hc : ¬Viable first second c) :
    FindsFirst first second (c :: row) (handed first second c ++ found.1, found.2) := by
  rcases h with ⟨passed, d, rest, a, b, rfl, hpassed, ha, hb, rfl⟩ | ⟨hrow, rfl⟩
  · refine .inl ⟨c :: passed, d, rest, a, b, rfl, List.forall_mem_cons.2 ⟨hc, hpassed⟩, ha, hb, ?_⟩
    rw [List.flatMap_cons, List.append_assoc]
  · exact .inr ⟨List.forall_mem_cons.2 ⟨hc, hrow⟩, rfl⟩

/-- The search for a split finds the first viable candidate. -/
theorem findsFirst_search (runs : List (ℕ × List Char)) :
    FindsFirst first second (runs.filterMap fun (start, sep) => candidate? text start sep)
      (search text (fun c => first c.first) (fun c a => second c.second a) runs) := by
  induction runs with
  | nil => exact .nil
  | cons run runs ih =>
    obtain ⟨start, sep⟩ := run
    unfold search
    cases hc : candidate? text start sep with
    | none => simpa [hc] using ih
    | some c =>
      rw [List.filterMap_cons_some (by exact hc)]
      cases ha : first c.first with
      | none =>
        have := ih.cons (c := c) (by simp [Viable, ha])
        simpa [handed, ha] using this
      | some a =>
        cases hb : second c.second a with
        | none =>
          have := ih.cons (c := c) (by simp [Viable, ha, hb])
          simpa [handed, ha, hb] using this
        | some b => exact .inl ⟨[], c, _, a, b, rfl, by simp, ha, hb, by simp [ha, hb]⟩

/-- A search that finds nothing has passed every candidate. -/
theorem FindsFirst.eq_none_iff (h : FindsFirst first second row found) :
    found.2 = none ↔ ∀ c ∈ row, ¬Viable first second c := by
  rcases h with ⟨passed, d, rest, a, b, rfl, -, ha, hb, rfl⟩ | ⟨hrow, rfl⟩
  · simp only [reduceCtorEq, false_iff, not_forall, not_not]
    exact ⟨d, by simp, a, b, ha, hb⟩
  · simpa using hrow

end

/-- Whatever the sides are read with, the search tries the candidates in increasing position. It
finds the first one with both sides read, and hands over no side of another behind it. It finds
nothing if and only if no candidate is viable. The runs lie in the text, and so do the positions of
their sides. -/
theorem search_leftmost {α β : Type} (text : List Char) (first : List Char → Option α)
    (second : List Char → α → Option β) :
    let found := search text (fun c => first c.first) (fun c a => second c.second a)
      (separatorRuns text)
    (∀ start run left right, (∃ c ∈ candidates text,
      c.start = start ∧ c.sep = run ∧ c.first = left ∧ c.second = right) ↔
        IsCandidate text start run left right) ∧
    (candidates text).Pairwise (fun c d => c.stop < d.start) ∧
    FindsFirst first second (candidates text) found ∧
    (found.2 = none ↔ ∀ c ∈ candidates text, ¬Viable first second c) ∧
    (∀ start run, IsMaximalRun text start run → start + byteLength run ≤ byteLength text) ∧
    ∀ c ∈ candidates text, 2 ≤ c.start - 1 ∧ c.start - 1 < c.start ∧
      c.stop + 1 ≤ byteLength text - 1 ∧ byteLength text - 1 < byteLength text := by
  intro found
  have hfinds : FindsFirst first second (candidates text) found :=
    findsFirst_search (separatorRuns text)
  refine ⟨fun _ _ _ _ => exists_candidate_iff, pairwise_candidates text, hfinds,
    hfinds.eq_none_iff, fun _ _ hrun => hrun.stop_le, fun c hc => ?_⟩
  obtain ⟨-, hstart, hstop, -⟩ := mem_candidates_iff.1 hc
  rw [Candidate.stop]
  omega

end RecordStore.Format
