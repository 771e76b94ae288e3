import RecordStore.Proofs.UnescapedReadings

/-!
# The split of a pair

The sides of a pair are told apart by their parentheses. If those of the first side match, then a
run of separator text that is tried before the right one leaves a second side in which a
parenthesis is closed that was not opened, or one is left open. So the first split that is found is
the only one.

## Main definitions

* `Format.closes` — whether the parentheses that are open before a text are closed in it.
* `Format.Matched` — a text whose parentheses match.

## Main statements

* `Format.Matched.closes_suffix` — a part of a matched text does not close another parenthesis.
* `Format.separatorRuns_pairText` — the runs of a pair.
* `Format.search_pairText` — the split of a pair is found.
-/

namespace RecordStore.Format

/-! ## Parentheses -/

/-- Whether parentheses of a text without escapes match when some are open before it. -/
def closes (depth : Nat) (text : List Char) : Bool := mayMatch depth depth false text

section

variable {depth : Nat} {text : List Char}

@[simp] theorem closes_nil : closes depth [] = decide (depth = 0) := rfl

@[simp] theorem closes_open : closes depth ('(' :: text) = closes (depth + 1) text := rfl

@[simp] theorem closes_close :
    closes depth (')' :: text) = (decide (0 < depth) && closes (depth - 1) text) := rfl

theorem closes_other {c : Char} (ho : c ≠ '(') (hc : c ≠ ')') (hs : c ≠ '\\') :
    closes depth (c :: text) = closes depth text := by
  simp [closes, mayMatch, hs]

end

/-- Whether the parentheses of a text match, so that it opens and closes none around it. -/
def Matched (text : List Char) : Prop :=
  ∀ (depth : Nat) (rest : List Char), closes depth (text ++ rest) = closes depth rest

def isNeutral (c : Char) : Bool := c != '(' && c != ')' && c != '\\'

namespace Matched

variable {front back : List Char}

theorem append (hf : Matched front) (hb : Matched back) : Matched (front ++ back) := by
  intro depth rest
  rw [List.append_assoc, hf, hb]

theorem of_neutral {text : List Char} (h : ∀ c ∈ text, isNeutral c = true) : Matched text := by
  intro depth rest
  induction text with
  | nil => rfl
  | cons c text ih =>
    obtain ⟨hc, htext⟩ := List.forall_mem_cons.1 h
    simp only [isNeutral, Bool.and_eq_true, bne_iff_ne] at hc
    rw [List.cons_append, closes_other hc.1.1 hc.1.2 hc.2, ih htext]

theorem parens {text : List Char} (h : Matched text) : Matched ('(' :: text ++ [')']) := by
  intro depth rest
  simp [h (depth + 1)]

theorem isBalanced {text : List Char} (h : Matched text) : isBalanced text = true := by
  have hclosed := h 0 []
  rw [List.append_nil] at hclosed
  exact hclosed

end Matched

/-- What is open before a text is open in front of its second part, up to what the first opens and
closes. -/
theorem exists_closes_suffix {front back : List Char} (hs : '\\' ∉ front) {depth : Nat}
    (h : closes depth (front ++ back) = true) : ∃ depth', closes depth' back = true := by
  induction front generalizing depth with
  | nil => exact ⟨depth, h⟩
  | cons c front ih =>
    obtain ⟨hc, hfront⟩ : '\\' ≠ c ∧ '\\' ∉ front := by simpa using hs
    by_cases ho : c = '('
    · subst ho
      exact ih hfront h
    by_cases hclose : c = ')'
    · subst hclose
      simp only [List.cons_append, closes_close, Bool.and_eq_true] at h
      exact ih hfront h.2
    · rw [List.cons_append, closes_other ho hclose hc.symm] at h
      exact ih hfront h

/-- A text that closes at least what is open before it closes nothing more. -/
theorem closes_append_close {text : List Char} (hs : '\\' ∉ text) {high low : Nat}
    (hle : low ≤ high) (h : closes high text = true) (rest : List Char) :
    closes low (text ++ ')' :: rest) = false := by
  induction text generalizing high low with
  | nil =>
    obtain rfl : high = 0 := by simpa using h
    obtain rfl := Nat.le_zero.1 hle
    rfl
  | cons c text ih =>
    obtain ⟨hc, htext⟩ : '\\' ≠ c ∧ '\\' ∉ text := by simpa using hs
    by_cases ho : c = '('
    · subst ho
      exact ih htext (Nat.succ_le_succ hle) h
    by_cases hclose : c = ')'
    · subst hclose
      simp only [closes_close, Bool.and_eq_true] at h
      simp [ih htext (Nat.sub_le_sub_right hle 1) h.2]
    · rw [closes_other ho hclose hc.symm] at h
      rw [List.cons_append, closes_other ho hclose hc.symm]
      exact ih htext hle h

/-- The end of a text whose parentheses match does not close one that was not opened in it. -/
theorem Matched.closes_suffix {front back : List Char} (h : Matched (front ++ back))
    (hs : '\\' ∉ front ++ back) (rest : List Char) : closes 0 (back ++ ')' :: rest) = false := by
  rw [List.mem_append, not_or] at hs
  have hall : closes 0 (front ++ back) = true := h.isBalanced
  obtain ⟨depth, hdepth⟩ := exists_closes_suffix hs.1 hall
  exact closes_append_close hs.2 (Nat.zero_le depth) hdepth rest

/-! ## Positions -/

theorem byteLength_append (a b : List Char) :
    byteLength (a ++ b) = byteLength a + byteLength b := by
  induction a with
  | nil => simp [byteLength]
  | cons c a ih => simp only [byteLength, List.cons_append, List.foldr_cons] at ih ⊢; omega

theorem byteLength_cons (c : Char) (text : List Char) :
    byteLength (c :: text) = c.utf8Size + byteLength text := rfl

theorem byteLength_pos {text : List Char} (h : text ≠ []) : 0 < byteLength text := by
  cases text with
  | nil => exact absurd rfl h
  | cons c text => exact Nat.add_pos_left c.utf8Size_pos _

theorem dropBytes?_append (a b : List Char) : dropBytes? (byteLength a) (a ++ b) = some b := by
  induction a with
  | nil => cases b <;> rfl
  | cons c a ih =>
    have hpos := c.utf8Size_pos
    obtain ⟨n, hn⟩ : ∃ n, byteLength (c :: a) = n + 1 :=
      ⟨_, (Nat.succ_pred_eq_of_pos (byteLength_pos (by simp))).symm⟩
    have hc := byteLength_cons c a
    rw [hn, List.cons_append, dropBytes?, if_pos (by omega),
      show n + 1 - c.utf8Size = byteLength a by omega, ih]

theorem takeBytes?_append (a b : List Char) : takeBytes? (byteLength a) (a ++ b) = some a := by
  induction a with
  | nil => cases b <;> rfl
  | cons c a ih =>
    have hpos := c.utf8Size_pos
    obtain ⟨n, hn⟩ : ∃ n, byteLength (c :: a) = n + 1 :=
      ⟨_, (Nat.succ_pred_eq_of_pos (byteLength_pos (by simp))).symm⟩
    have hc := byteLength_cons c a
    rw [hn, List.cons_append, takeBytes?, if_pos (by omega),
      show n + 1 - c.utf8Size = byteLength a by omega, ih]
    rfl

/-- A part of a text lies between the positions before and behind it. -/
theorem slice?_append {a b c : List Char} {start stop : Nat} (hstart : start = byteLength a)
    (hstop : stop = byteLength a + byteLength b) : slice? start stop (a ++ b ++ c) = some b := by
  subst hstart hstop
  rw [slice?, List.append_assoc, dropBytes?_append, Option.bind_some, Nat.add_sub_cancel_left,
    takeBytes?_append]

/-- What is left starts behind the bytes that are dropped. -/
theorem dropBytes?_eq_some_iff {n : Nat} {text rest : List Char} :
    dropBytes? n text = some rest ↔ ∃ front, text = front ++ rest ∧ byteLength front = n := by
  constructor
  · intro h
    fun_induction dropBytes? n text with
    | case1 text => exact ⟨[], by simpa using h, rfl⟩
    | case2 => cases h
    | case3 n c tail hle ih =>
      obtain ⟨front, rfl, hfront⟩ := ih h
      exact ⟨c :: front, rfl, by rw [byteLength_cons]; omega⟩
    | case4 => cases h
  · rintro ⟨front, rfl, rfl⟩
    exact dropBytes?_append front rest

theorem takeBytes?_eq_some_iff {n : Nat} {text front : List Char} :
    takeBytes? n text = some front ↔ ∃ back, text = front ++ back ∧ byteLength front = n := by
  constructor
  · intro h
    fun_induction takeBytes? n text generalizing front with
    | case1 text => exact ⟨text, by simp_all, by simp_all [byteLength]⟩
    | case2 => cases h
    | case3 n c tail hle ih =>
      obtain ⟨front, hfront, rfl⟩ := Option.map_eq_some_iff.1 h
      obtain ⟨back, rfl, hlength⟩ := ih hfront
      exact ⟨back, rfl, by rw [byteLength_cons]; omega⟩
    | case4 => cases h
  · rintro ⟨back, rfl, rfl⟩
    exact takeBytes?_append front back

theorem mem_of_mem_slice? {start stop : Nat} {text side : List Char}
    (h : slice? start stop text = some side) {c : Char} (hc : c ∈ side) : c ∈ text := by
  obtain ⟨rest, hdrop, htake⟩ := Option.bind_eq_some_iff.1 h
  obtain ⟨front, rfl, -⟩ := dropBytes?_eq_some_iff.1 hdrop
  obtain ⟨back, rfl, -⟩ := takeBytes?_eq_some_iff.1 htake
  simp [hc]

/-! ## Runs -/

/-- A character that is not plain is no part of a run. -/
theorem runsFrom_cons {c : Char} (hc : isPlain c = false) {text : List Char}
    (h : '\\' ∉ c :: text) (offset : Nat) :
    runsFrom offset (c :: text) = runsFrom (offset + c.utf8Size) text := by
  have hread := readGreedy_of_notMem isPlain h
  rw [List.takeWhile_cons_of_neg (by simp [hc])] at hread
  rw [runsFrom]
  split <;> simp_all

/-- Plain characters in front of another one are a run. -/
theorem runsFrom_append {run text : List Char} (hne : run ≠ [])
    (hp : ∀ c ∈ run, isPlain c = true) (ht : ∀ c ∈ text.head?, isPlain c = false)
    (h : '\\' ∉ run ++ text) (offset : Nat) :
    runsFrom offset (run ++ text) =
      (offset, run) :: runsFrom (offset + byteLength run) text := by
  have hread := readGreedy_of_notMem isPlain h
  rw [takeWhile_append_of_head hp ht, dropWhile_append_of_head hp ht] at hread
  cases run with
  | nil => exact absurd rfl hne
  | cons c run =>
    rw [List.cons_append] at hread ⊢
    rw [runsFrom]
    split <;> simp_all

/-- A text without escapes is empty, or begins with a character that is not plain, or with a
run. -/
theorem run_cases (text : List Char) :
    text = [] ∨ (∃ c rest, text = c :: rest ∧ isPlain c = false) ∨
      ∃ run rest, text = run ++ rest ∧ run ≠ [] ∧ (∀ c ∈ run, isPlain c = true) ∧
        ∀ c ∈ rest.head?, isPlain c = false := by
  cases text with
  | nil => exact .inl rfl
  | cons c rest =>
    cases hc : isPlain c with
    | false => exact .inr (.inl ⟨c, rest, rfl, hc⟩)
    | true =>
      refine .inr (.inr ⟨(c :: rest).takeWhile isPlain, (c :: rest).dropWhile isPlain,
        List.takeWhile_append_dropWhile.symm, by simp [hc], fun d => List.mem_takeWhile_imp, ?_⟩)
      intro d hd
      have := List.head?_dropWhile_not isPlain (c :: rest)
      simpa [Option.mem_def.1 hd] using this

/-- The runs of a text end at a character that is not plain, and go on behind it. -/
theorem runsFrom_append_cons {c : Char} (hc : isPlain c = false) (front back : List Char)
    (h : '\\' ∉ front ++ c :: back) (offset : Nat) :
    runsFrom offset (front ++ c :: back) = runsFrom offset front ++
      runsFrom (offset + byteLength (front ++ [c])) back := by
  induction hlen : front.length using Nat.strongRecOn generalizing front offset with
  | ind n ih =>
    rcases run_cases front with rfl | ⟨d, rest, rfl, hd⟩ | ⟨run, rest, rfl, hne, hp, ht⟩
    · rw [List.nil_append, runsFrom_cons hc h, runsFrom, List.nil_append]
      rfl
    · have hrest : '\\' ∉ rest ++ c :: back := fun hm => h (List.mem_cons_of_mem d hm)
      have hfront : '\\' ∉ d :: rest := fun hm => h (List.mem_append_left _ hm)
      rw [List.cons_append] at h ⊢
      rw [runsFrom_cons hd h, runsFrom_cons hd hfront,
        ih rest.length (by simp at hlen; omega) rest hrest _ rfl, List.cons_append,
        byteLength_cons, Nat.add_assoc]
    · have hback : ∀ d ∈ (rest ++ c :: back).head?, isPlain d = false := by
        cases rest <;> simp_all
      have hrest : '\\' ∉ rest ++ c :: back := by simp_all
      have hfront : '\\' ∉ run ++ rest := by simp_all
      have hlt : rest.length < n := by
        have := List.length_pos_iff.2 hne
        rw [List.length_append] at hlen
        omega
      rw [List.append_assoc] at h ⊢
      rw [runsFrom_append hne hp hback h, runsFrom_append hne hp ht hfront,
        ih rest.length hlt rest hrest _ rfl, List.cons_append, List.append_assoc,
        byteLength_append run, Nat.add_assoc]

/-- A run is a part of its text, in front of a character that is not plain. -/
theorem exists_of_mem_runsFrom {text : List Char} (h : '\\' ∉ text) {offset start : Nat}
    {run : List Char} (hm : (start, run) ∈ runsFrom offset text) :
    (∀ c ∈ run, isPlain c = true) ∧ ∃ front back, text = front ++ run ++ back ∧
      start = offset + byteLength front ∧ ∀ c ∈ back.head?, isPlain c = false := by
  induction hlen : text.length using Nat.strongRecOn generalizing text offset with
  | ind n ih =>
    rcases run_cases text with rfl | ⟨d, rest, rfl, hd⟩ | ⟨run', rest, rfl, hne, hp, ht⟩
    · simp [runsFrom] at hm
    · have hrest : '\\' ∉ rest := fun hr => h (List.mem_cons_of_mem d hr)
      rw [runsFrom_cons hd h] at hm
      obtain ⟨hrun, front, back, rfl, rfl, hback⟩ :=
        ih rest.length (by simp at hlen; omega) hrest hm rfl
      exact ⟨hrun, d :: front, back, rfl, by rw [byteLength_cons]; omega, hback⟩
    · have hrest : '\\' ∉ rest := fun hr => h (List.mem_append_right _ hr)
      have hlt : rest.length < n := by
        have := List.length_pos_iff.2 hne
        rw [List.length_append] at hlen
        omega
      rw [runsFrom_append hne hp ht h] at hm
      rcases List.mem_cons.1 hm with heq | hm
      · obtain ⟨rfl, rfl⟩ := Prod.mk.inj heq
        exact ⟨hp, [], rest, rfl, rfl, ht⟩
      · obtain ⟨hrun, front, back, rfl, rfl, hback⟩ := ih rest.length hlt hrest hm rfl
        exact ⟨hrun, run' ++ front, back, by simp, by rw [byteLength_append]; omega, hback⟩

/-- The runs of a pair are those up to the end of its first side, the separator and the rest. -/
theorem separatorRuns_pairText {first second : List Char} (hf : '\\' ∉ first)
    (hs : '\\' ∉ second) (sep : SepText) :
    ∃ rest, separatorRuns (pairText first sep.chars second) =
      runsFrom 0 ('P' :: '(' :: first) ++ (byteLength first + 3, sep.chars) :: rest := by
  have hopen : isPlain '(' = false := by decide
  have hclose : isPlain ')' = false := by decide
  have hsep : '\\' ∉ sep.chars := sep.notMem_chars (by decide)
  have htext : pairText first sep.chars second =
      ('P' :: '(' :: first) ++ ')' :: (sep.chars ++ '(' :: second ++ [')']) := by
    simp [pairText]
  refine ⟨runsFrom (byteLength first + 3 + byteLength sep.chars) ('(' :: second ++ [')']), ?_⟩
  rw [separatorRuns, htext, runsFrom_append_cons hclose _ _ (by simp [hf, hs, hsep]),
    List.append_assoc, runsFrom_append sep.ne_nil sep.isPlain_of_mem (by simpa using hopen)
      (by simp [hs, hsep])]
  have hlength : 0 + byteLength ('P' :: '(' :: first ++ [')']) = byteLength first + 3 := by
    have hsize : 'P'.utf8Size = 1 ∧ '('.utf8Size = 1 ∧ byteLength [')'] = 1 := by decide
    rw [byteLength_append, byteLength_cons, byteLength_cons]
    omega
  rw [hlength]

/-! ## Candidates -/

theorem candidate?_eq_some_iff {text : List Char} {start : Nat} {sep : List Char}
    {c : Candidate text} : candidate? text start sep = some c ↔
      c.start = start ∧ c.sep = sep ∧ 4 ≤ start ∧
        start + byteLength sep + 3 ≤ byteLength text ∧
          slice? 2 (start - 1) text = some c.first ∧
            slice? (start + byteLength sep + 1) (byteLength text - 1) text = some c.second := by
  obtain ⟨start', sep', first, second, hf, hs⟩ := c
  unfold candidate?
  grind

/-- The sides of a candidate are parts of the text. -/
theorem mem_of_candidate? {text : List Char} {start : Nat} {sep : List Char} {c : Candidate text}
    (h : candidate? text start sep = some c) {d : Char} (hd : d ∈ c.first ∨ d ∈ c.second) :
    d ∈ text := by
  obtain ⟨-, -, -, -, hfirst, hsecond⟩ := candidate?_eq_some_iff.1 h
  exact hd.elim (mem_of_mem_slice? hfirst) (mem_of_mem_slice? hsecond)

section

variable {α β : Type} {text : List Char} {readFirst readFirst' : Candidate text → Option α}
  {readSecond readSecond' : Candidate text → α → Option β}

/-- A search is known from how its readers read candidates. -/
theorem search_congr {runs : List (Nat × List Char)}
    (hf : ∀ start sep c, candidate? text start sep = some c → readFirst c = readFirst' c)
    (hs : ∀ start sep c, candidate? text start sep = some c →
      ∀ first, readSecond c first = readSecond' c first) :
    search text readFirst readSecond runs = search text readFirst' readSecond' runs := by
  induction runs with
  | nil => rfl
  | cons run runs ih =>
    obtain ⟨start, sep⟩ := run
    rw [search, search, ih]
    cases hc : candidate? text start sep with
    | none => rfl
    | some c => simp only [hf start sep c hc, hs start sep c hc]

/-- Runs that give no split with readable sides are passed over. -/
theorem search_append {front back : List (Nat × List Char)}
    (h : ∀ run ∈ front, ∀ c, candidate? text run.1 run.2 = some c →
      ∀ first, readFirst c = some first → readSecond c first = none) :
    (search text readFirst readSecond (front ++ back)).2 =
      (search text readFirst readSecond back).2 := by
  induction front with
  | nil => rfl
  | cons run front ih =>
    obtain ⟨start, sep⟩ := run
    obtain ⟨hrun, hfront⟩ := List.forall_mem_cons.1 h
    rw [List.cons_append, search]
    cases hc : candidate? text start sep with
    | none => exact ih hfront
    | some c =>
      cases hf : readFirst c with
      | none => simpa [hf] using ih hfront
      | some first => simpa [hf, hrun c hc first hf] using ih hfront

/-- A run with readable sides is the split. -/
theorem search_cons {start : Nat} {sep : List Char} {c : Candidate text} {first : α} {second : β}
    (hc : candidate? text start sep = some c) (hf : readFirst c = some first)
    (hs : readSecond c first = some second) (rest : List (Nat × List Char)) :
    (search text readFirst readSecond ((start, sep) :: rest)).2 = some ⟨c, first, second⟩ := by
  rw [search]
  simp [hc, hf, hs]

end

/-! ## Pairs -/

section

variable {first second : List Char} (sep : SepText)

/-- The sides of a pair are split at its separator. -/
theorem exists_candidate (hf : first ≠ []) (hs : second ≠ []) :
    ∃ c, candidate? (pairText first sep.chars second) (byteLength first + 3) sep.chars = some c ∧
      c.first = first ∧ c.sep = sep.chars ∧ c.second = second := by
  have hfirst := byteLength_pos hf
  have hsecond := byteLength_pos hs
  have hfront : byteLength ['P', '('] = 2 ∧ byteLength [')'] = 1 ∧ byteLength ['('] = 1 := by
    decide
  have htext : pairText first sep.chars second =
      ['P', '('] ++ first ++ ([')'] ++ sep.chars ++ ['('] ++ second ++ [')']) := by
    simp [pairText]
  have htext' : pairText first sep.chars second =
      (['P', '('] ++ first ++ [')'] ++ sep.chars ++ ['(']) ++ second ++ [')'] := by
    simp [pairText]
  have hlength : byteLength (pairText first sep.chars second) =
      byteLength first + byteLength sep.chars + byteLength second + 5 := by
    simp only [htext, byteLength_append]
    omega
  have hslice : slice? 2 (byteLength first + 3 - 1) (pairText first sep.chars second) =
      some first := by
    rw [htext]
    exact slice?_append (by omega) (by omega)
  have hslice' : slice? (byteLength first + 3 + byteLength sep.chars + 1)
      (byteLength (pairText first sep.chars second) - 1) (pairText first sep.chars second) =
        some second := by
    rw [hlength, htext']
    exact slice?_append (by simp only [byteLength_append]; omega)
      (by simp only [byteLength_append]; omega)
  refine ⟨⟨byteLength first + 3, sep.chars, first, second, length_slice?_lt (by omega) hslice,
    length_slice?_lt (by omega) hslice'⟩, candidate?_eq_some_iff.2 ?_, rfl, rfl, rfl⟩
  exact ⟨rfl, rfl, by omega, by omega, hslice, hslice'⟩

theorem closes_sep_append {text : List Char} (depth : Nat) :
    closes depth (sep.chars ++ text) = closes depth text := by
  refine Matched.of_neutral (fun c hc => ?_) depth text
  have hplain := sep.isPlain_of_mem c hc
  simp only [isPlain, Bool.and_eq_true] at hplain
  simp [isNeutral, hplain]

/-- A run that is tried before the separator is a part of the first side. -/
theorem exists_of_mem_runs_first (h : '\\' ∉ first) {start : Nat} {run : List Char}
    (hm : (start, run) ∈ runsFrom 0 ('P' :: '(' :: first)) (hstart : 4 ≤ start) :
    ∃ front back, first = front ++ run ++ back ∧ start = byteLength front + 2 ∧
      ∀ c ∈ back.head?, isPlain c = false := by
  obtain ⟨-, front, back, htext, rfl, hback⟩ := exists_of_mem_runsFrom (by simp [h]) hm
  have hsize : 'P'.utf8Size = 1 ∧ '('.utf8Size = 1 := by decide
  match front with
  | [] => simp [byteLength] at hstart
  | [d] =>
    obtain ⟨rfl, -⟩ := List.cons.inj htext
    have hone : byteLength ['P'] = 1 := by decide
    omega
  | d :: e :: front =>
    simp only [List.cons_append, List.cons.injEq] at htext
    obtain ⟨rfl, rfl, rfl⟩ := htext
    refine ⟨front, back, rfl, ?_, hback⟩
    rw [byteLength_cons, byteLength_cons]
    omega

/-- Behind a place in the first side of a pair, parentheses do not match before the last one. -/
theorem isBalanced_behind_eq_false {front back : List Char} (hf : Matched (front ++ back))
    (hs : Matched second) (h : '\\' ∉ front ++ back) {c : Char} {rest : List Char}
    (hrest : back ++ ')' :: (sep.chars ++ '(' :: second) = c :: rest) :
    isBalanced rest = false := by
  cases back with
  | nil =>
    -- The run ends the first side, so the separator is left with the second side open.
    obtain ⟨-, rfl⟩ := List.cons.inj hrest
    show closes 0 _ = false
    rw [closes_sep_append, closes_open, ← List.append_nil second, hs]
    rfl
  | cons d back =>
    obtain ⟨rfl, rfl⟩ := List.cons.inj hrest
    have hsplit : front ++ d :: back = (front ++ [d]) ++ back := by simp
    rw [hsplit] at hf h
    exact hf.closes_suffix h _

theorem byteLength_of_not_isPlain {c : Char} (h : isPlain c = false) : byteLength [c] = 1 := by
  have hc : c = '*' ∨ c = '(' ∨ c = ')' ∨ c = '\\' := by
    simp only [isPlain] at h
    grind
  rcases hc with rfl | rfl | rfl | rfl <;> decide

/-- A run of the first side of a pair does not split off a second side that can be read. -/
theorem isBalanced_second_eq_false (hf : Matched first) (hs : Matched second) (h : '\\' ∉ first)
    {start : Nat} {run : List Char} (hm : (start, run) ∈ runsFrom 0 ('P' :: '(' :: first))
    {c : Candidate (pairText first sep.chars second)}
    (hc : candidate? (pairText first sep.chars second) start run = some c) :
    isBalanced c.second = false := by
  obtain ⟨-, -, hstart, -, -, hslice⟩ := candidate?_eq_some_iff.1 hc
  obtain ⟨front, back, rfl, rfl, hback⟩ := exists_of_mem_runs_first h hm hstart
  obtain ⟨d, rest, hrest⟩ : ∃ d rest,
      back ++ ')' :: (sep.chars ++ '(' :: second) = d :: rest := by
    cases back <;> simp
  have hd : isPlain d = false := by
    have hclose : isPlain ')' = false := by decide
    cases back with
    | nil => exact (List.cons.inj hrest).1 ▸ hclose
    | cons e back => exact hback d (congrArg some (List.cons.inj hrest).1)
  have hpair : pairText (front ++ run ++ back) sep.chars second =
      (['P', '('] ++ front ++ run ++ [d]) ++ rest ++ [')'] := by
    calc pairText (front ++ run ++ back) sep.chars second
      _ = ['P', '('] ++ front ++ run ++ (back ++ ')' :: (sep.chars ++ '(' :: second)) ++
            [')'] := by simp [pairText]
      _ = _ := by simp [hrest]
  have hrestSlice : slice? (byteLength front + 2 + byteLength run + 1)
      (byteLength (pairText (front ++ run ++ back) sep.chars second) - 1)
      (pairText (front ++ run ++ back) sep.chars second) = some rest := by
    have hopen : byteLength ['P', '('] = 2 ∧ byteLength [')'] = 1 := by decide
    have hone := byteLength_of_not_isPlain hd
    rw [hpair]
    exact slice?_append (by simp only [byteLength_append]; omega)
      (by simp only [byteLength_append]; omega)
  rw [← Option.some.inj (hrestSlice.symm.trans hslice)]
  exact isBalanced_behind_eq_false sep hf hs h hrest

variable {α β : Type} {left : α} {right : β}
  {readFirst : Candidate (pairText first sep.chars second) → Option α}
  {readSecond : Candidate (pairText first sep.chars second) → α → Option β}

/-- A pair with matched sides is split at its separator, by a reader that takes second sides with
matching parentheses only. -/
theorem search_pairText (hf : Matched first) (hs : Matched second) (hfirst : first ≠ [])
    (hsecond : second ≠ []) (hnf : '\\' ∉ first) (hns : '\\' ∉ second)
    (hbalanced : ∀ c first, '\\' ∉ c.second → isBalanced c.second = false →
      readSecond c first = none)
    (hleft : ∀ c, c.first = first → readFirst c = some left)
    (hright : ∀ c, c.second = second → readSecond c left = some right) :
    ∃ c : Candidate (pairText first sep.chars second), c.first = first ∧ c.sep = sep.chars ∧
      c.second = second ∧ (search (pairText first sep.chars second) readFirst readSecond
        (separatorRuns (pairText first sep.chars second))).2 = some ⟨c, left, right⟩ := by
  obtain ⟨rest, hruns⟩ := separatorRuns_pairText hnf hns sep
  obtain ⟨c, hc, h₁, h₂, h₃⟩ := exists_candidate sep hfirst hsecond
  refine ⟨c, h₁, h₂, h₃, ?_⟩
  rw [hruns, search_append, search_cons hc (hleft c h₁) (hright c h₃)]
  intro run hm c hc first _
  have hslash : '\\' ∉ c.second := fun hd => by
    have hpair := mem_of_candidate? hc (.inr hd)
    have hsep : '\\' ∉ sep.chars := sep.notMem_chars (by decide)
    simp_all [pairText]
  exact hbalanced c first hslash (isBalanced_second_eq_false sep hf hs hnf hm hc)

end

end RecordStore.Format
