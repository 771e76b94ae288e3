import RecordStore.Proofs.IntegerTokens

/-!
# Real numbers in front of a text

The texts of real numbers are a language: a sign, and digits with a point and an exponent, or a
word. Scanning takes the longest text in front that is of the language. It is told part by part, as
each part takes the longest text of its own: what could go on behind a shorter part goes on in the
longer one.

## Main definitions

* `RealToken` — the texts of real numbers with their numbers, by what the digits of an exponent
  stand for.
* `Reread` — the numbers of a text by what these digits stand for.
* `Longest` — what a scan gives that takes the longest text of a language.
* `ParsableReal` — the texts that parsers of real numbers take.

## Main statements

* `longest_scanReal?` — scanning takes the longest text of a real number.
* `RealToken.unique` — a text is that of one real number.
* `scanReal?_eq_some_iff`, `scanReal?_eq_none_iff` — what is scanned.
* `RealToken.exists_reread`, `Reread.eq_of_exponentBelow` — an exponent is scanned up to a limit.
* `RealToken.parsable` — what is scanned is parsed.
-/

namespace RecordStore

open Decimal

/-! ## The language -/

def signText : Option Bool → Bytes
  | none => []
  | some false => [0x2b]
  | some true => [0x2d]

def signedNumber (sign : Option Bool) (n : ℕ) : ℤ := if sign = some true then -n else n

/-- Digits with a point or none: the text, the digits before the point and those behind it. -/
inductive Mantissa : Bytes → Bytes → Bytes → Prop
  | whole {whole : Bytes} (hw : whole.IsDigits) : Mantissa whole whole []
  | point {whole fraction : Bytes} (hw : whole.IsDigits)
    (hf : ∀ b ∈ fraction, Bytes.isDigit b = true) :
    Mantissa (whole ++ 0x2e :: fraction) whole fraction
  | fraction {fraction : Bytes} (hf : fraction.IsDigits) : Mantissa (0x2e :: fraction) [] fraction

/-- What the digits of an exponent are scanned as. -/
abbrev scannedValue : Bytes → ℕ := Digits.cappedValue exponentLimit

/-- An exponent or none, with its number. -/
inductive ExponentToken (value : Bytes → ℕ) : Bytes → ℤ → Prop
  | empty : ExponentToken value [] 0
  | digits {letter : UInt8} {digits : Bytes} (sign : Option Bool)
    (hl : letter = 0x65 ∨ letter = 0x45) (hd : digits.IsDigits) :
    ExponentToken value (letter :: (signText sign ++ digits)) (signedNumber sign (value digits))

inductive DecimalToken (value : Bytes → ℕ) : Bytes → RealText → Prop
  | mk {mantissa whole fraction exponent : Bytes} {e : ℤ} (hm : Mantissa mantissa whole fraction)
    (he : ExponentToken value exponent e) :
    DecimalToken value (mantissa ++ exponent)
      (.decimal (Digits.denoted (whole ++ fraction)) (e - fraction.length))

inductive WordToken : Bytes → RealText → Prop
  | infinity {word : Bytes}
    (h : word.map lowerByte ∈ [Bytes.ofText "inf", Bytes.ofText "infinity"]) :
    WordToken word .infinity
  | nan {word : Bytes} (h : word.map lowerByte = Bytes.ofText "nan") : WordToken word .nan

def MagnitudeToken (value : Bytes → ℕ) (text : Bytes) (number : RealText) : Prop :=
  DecimalToken value text number ∨ WordToken text number

/-- The text of a real number, with its sign and its number. -/
inductive RealToken (value : Bytes → ℕ) : Bytes → Bool × RealText → Prop
  | mk {magnitude : Bytes} {number : RealText} (sign : Option Bool)
    (h : MagnitudeToken value magnitude number) :
    RealToken value (signText sign ++ magnitude) (decide (sign = some true), number)

variable {value : Bytes → ℕ}

/-! ## The longest text -/

/-- What a scan gives that takes the longest text of a language in front: what the text stands for
and its length, or nothing if no text of the language is in front. -/
inductive Longest {α : Type} (L : Bytes → α → Prop) (bytes : Bytes) : Option (α × ℕ) → Prop
  | absent (h : ∀ token a, L token a → ¬token <+: bytes) : Longest L bytes none
  | taken {token : Bytes} {a : α} {n : ℕ} (h : L token a) (hp : token <+: bytes)
    (hn : token.length = n) (hl : ∀ other b, L other b → other <+: bytes → other.length ≤ n) :
    Longest L bytes (some (a, n))

/-! ## Digits -/

/-- The digits in front of a byte string, of which there may be none. -/
theorem exists_leading_digits (bytes : Bytes) :
    ∃ digits rest, bytes = digits ++ rest ∧ (∀ b ∈ digits, Bytes.isDigit b = true) ∧
      ∀ b ∈ rest.head?, Bytes.isDigit b = false := by
  by_cases h : bytes.takeWhile Bytes.isDigit = []
  · refine ⟨[], bytes, rfl, by simp, fun b hb => ?_⟩
    cases bytes <;> simp_all
  · obtain ⟨digits, rest, rfl, -, hdigits, hr⟩ := exists_digits_append h
    exact ⟨digits, rest, rfl, hdigits.isDigit, hr⟩

/-- Digits in front go no further than to the first byte that is none. -/
theorem length_digits_le {digits front rest : Bytes} (h : digits <+: front ++ rest)
    (hd : ∀ b ∈ digits, Bytes.isDigit b = true) (hf : ∀ b ∈ front, Bytes.isDigit b = true)
    (hr : ∀ b ∈ rest.head?, Bytes.isDigit b = false) : digits.length ≤ front.length := by
  obtain ⟨tail, htail⟩ := h
  have htake := congrArg (List.takeWhile Bytes.isDigit) htail
  rw [List.takeWhile_append_of_pos hd, takeWhile_digits hf hr] at htake
  rw [← htake, List.length_append]
  exact Nat.le_add_right _ _

theorem digits_eq_nil {digits rest : Bytes} (h : digits <+: rest)
    (hd : ∀ b ∈ digits, Bytes.isDigit b = true) (hr : ∀ b ∈ rest.head?, Bytes.isDigit b = false) :
    digits = [] := by
  have hlength := length_digits_le (List.nil_append rest ▸ h) hd (List.forall_mem_nil _) hr
  exact List.length_eq_zero_iff.1 (Nat.le_zero.1 hlength)

theorem digits_append_inj {digits digits' rest rest' : Bytes}
    (h : digits ++ rest = digits' ++ rest') (hd : ∀ b ∈ digits, Bytes.isDigit b = true)
    (hd' : ∀ b ∈ digits', Bytes.isDigit b = true)
    (hr : ∀ b ∈ rest.head?, Bytes.isDigit b = false)
    (hr' : ∀ b ∈ rest'.head?, Bytes.isDigit b = false) : digits = digits' ∧ rest = rest' := by
  have hdigits : digits = digits' := by
    rw [← takeWhile_digits hd hr, h, takeWhile_digits hd' hr']
  subst hdigits
  exact ⟨rfl, List.append_cancel_left h⟩

/-! ## Signs -/

theorem length_signText (sign : Option Bool) :
    (signText sign).length = if sign.isSome then 1 else 0 := by
  rcases sign with _ | (_ | _) <;> rfl

theorem signText_append_splitSign (bytes : Bytes) :
    signText (splitSign bytes).1 ++ (splitSign bytes).2 = bytes := by
  rcases splitSign_cases bytes with ⟨body, rfl, h⟩ | ⟨body, rfl, h⟩ | h <;> rw [h] <;> rfl

theorem splitSign_signText (sign : Option Bool) {body : Bytes}
    (h : splitSign body = (none, body)) : splitSign (signText sign ++ body) = (sign, body) := by
  rcases sign with _ | (_ | _)
  · exact h
  · rfl
  · rfl

theorem signText_append_inj {sign sign' : Option Bool} {body body' : Bytes}
    (h : signText sign ++ body = signText sign' ++ body') (hb : splitSign body = (none, body))
    (hb' : splitSign body' = (none, body')) : sign = sign' ∧ body = body' := by
  have hsplit := congrArg splitSign h
  rw [splitSign_signText sign hb, splitSign_signText sign' hb'] at hsplit
  exact Prod.mk.inj hsplit

/-! ## Exponents -/

/-- An integer in front is a sign and all digits behind it. -/
theorem scanInteger_cases (bytes : Bytes) :
    (∃ sign digits rest, bytes = signText sign ++ (digits ++ rest) ∧ digits.IsDigits ∧
      (∀ b ∈ rest.head?, Bytes.isDigit b = false) ∧
      scanInteger true bytes =
        .ok ⟨sign = some true, digits, (signText sign ++ digits).length⟩) ∨
      (∃ blamed, scanInteger true bytes = .error blamed) ∧
        ∀ sign digits, digits.IsDigits → ¬signText sign ++ digits <+: bytes := by
  obtain ⟨digits, rest, hbody, hd, hr⟩ := exists_leading_digits (splitSign bytes).2
  have hbytes := signText_append_splitSign bytes
  by_cases hne : digits = []
  · right
    subst hne
    rw [List.nil_append] at hbody
    refine ⟨⟨(signText (splitSign bytes).1).length + 1, ?_⟩, ?_⟩
    · have htake : rest.takeWhile Bytes.isDigit = [] := by
        simpa using takeWhile_digits (List.forall_mem_nil _) hr
      simp [scanInteger, hbody, htake, length_signText]
    · rintro sign digits hdigits ⟨tail, rfl⟩
      rw [List.append_assoc, splitSign_signText sign (splitSign_digits hdigits tail)] at hbody
      exact hdigits.ne_nil (digits_eq_nil ⟨tail, hbody⟩ hdigits.isDigit hr)
  · left
    refine ⟨(splitSign bytes).1, digits, rest, by rw [← hbody, hbytes], ⟨hne, hd⟩, hr, ?_⟩
    simp [scanInteger, hbody, takeWhile_digits hd hr, hne, length_signText]

theorem lowerByte_eq_e_iff {b : UInt8} : lowerByte b = 0x65 ↔ b = 0x65 ∨ b = 0x45 := by
  grind [lowerByte]

theorem longest_scanExponent (bytes : Bytes) :
    Longest (ExponentToken scannedValue) bytes (some (scanExponent bytes)) := by
  cases bytes with
  | nil => exact .taken .empty List.nil_prefix rfl fun other _ _ hp => hp.length_le
  | cons b rest =>
    have hnone : (∀ sign digits, digits.IsDigits → lowerByte b = 0x65 →
        ¬signText sign ++ digits <+: rest) →
        Longest (ExponentToken scannedValue) (b :: rest) (some (0, 0)) := by
      intro hno
      refine .taken .empty List.nil_prefix rfl fun other _ h hp => ?_
      cases h with
      | empty => exact le_rfl
      | digits sign hl hd =>
        obtain ⟨rfl, hbody⟩ := List.cons_prefix_cons.1 hp
        exact absurd hbody (hno sign _ hd (lowerByte_eq_e_iff.2 hl))
    rw [scanExponent]
    split_ifs with hb
    · rcases scanInteger_cases rest with
        ⟨sign, digits, tail, rfl, hd, hr, hscan⟩ | ⟨⟨_, hscan⟩, hno⟩
      · have htoken := @ExponentToken.digits scannedValue _ _ sign (lowerByte_eq_e_iff.1 hb) hd
        rw [signedNumber] at htoken
        rw [hscan]
        simp only [IntegerText.value, decide_eq_true_eq]
        refine .taken htoken (by simp) rfl fun other _ h hp => ?_
        cases h with
        | empty => exact Nat.zero_le _
        | digits sign' hl hd' =>
          obtain ⟨-, tail', htail⟩ := List.cons_prefix_cons.1 hp
          rw [List.append_assoc] at htail
          obtain ⟨rfl, hdigits⟩ := signText_append_inj htail (splitSign_digits hd' tail')
            (splitSign_digits hd tail)
          have := length_digits_le ⟨tail', hdigits⟩ hd'.isDigit hd.isDigit hr
          simpa using this
      · rw [hscan]
        exact hnone fun sign digits hd _ => hno sign digits hd
    · exact hnone fun _ _ _ h => absurd h hb

/-! ## Mantissas -/

theorem Mantissa.cases_point {mantissa whole fraction : Bytes}
    (h : Mantissa mantissa whole fraction) :
    (mantissa = whole ∧ fraction = [] ∧ whole.IsDigits) ∨
      (mantissa = whole ++ 0x2e :: fraction ∧ (∀ b ∈ whole, Bytes.isDigit b = true) ∧
        (∀ b ∈ fraction, Bytes.isDigit b = true) ∧ whole ++ fraction ≠ []) := by
  cases h with
  | whole hw => exact .inl ⟨rfl, rfl, hw⟩
  | point hw hf => exact .inr ⟨rfl, hw.isDigit, hf, by simp [hw.ne_nil]⟩
  | fraction hf => exact .inr ⟨rfl, by simp, hf.isDigit, hf.ne_nil⟩

theorem Mantissa.of_point {whole fraction : Bytes} (hw : ∀ b ∈ whole, Bytes.isDigit b = true)
    (hf : ∀ b ∈ fraction, Bytes.isDigit b = true) (hne : whole ++ fraction ≠ []) :
    Mantissa (whole ++ 0x2e :: fraction) whole fraction := by
  by_cases h : whole = []
  · subst h
    exact .fraction ⟨hne, hf⟩
  · exact .point ⟨h, hw⟩ hf

theorem Mantissa.bytes {mantissa whole fraction : Bytes} (h : Mantissa mantissa whole fraction) :
    ∀ b ∈ mantissa, Bytes.isDigit b = true ∨ b = 0x2e := by
  rcases h.cases_point with ⟨rfl, -, hw⟩ | ⟨rfl, hw, hf, -⟩
  · exact fun b hb => .inl (hw.isDigit b hb)
  · intro b hb
    rcases List.mem_append.1 hb with hb | hb
    · exact .inl (hw b hb)
    · rcases List.mem_cons.1 hb with rfl | hb
      · exact .inr rfl
      · exact .inl (hf b hb)

/-- A mantissa that neither a digit nor a point can go on with is the longest one in front. -/
theorem Mantissa.length_le {mantissa whole fraction other whole' fraction' rest : Bytes}
    (h : Mantissa mantissa whole fraction) (h' : Mantissa other whole' fraction')
    (hr : ∀ b ∈ rest.head?, Bytes.isDigit b = false) (hp : rest.head? = some 0x2e → 0x2e ∈ mantissa)
    (hother : other <+: mantissa ++ rest) : other.length ≤ mantissa.length := by
  have hpoint : ∀ tail : Bytes, ∀ b ∈ (0x2e :: tail : Bytes).head?, Bytes.isDigit b = false := by
    rintro tail _ ⟨⟩
    decide
  rcases h.cases_point with ⟨rfl, -, hw⟩ | ⟨rfl, hw, hf, -⟩ <;>
    rcases h'.cases_point with ⟨rfl, -, hw'⟩ | ⟨rfl, hw', hf', -⟩
  · exact length_digits_le hother hw'.isDigit hw.isDigit hr
  · obtain ⟨tail, htail⟩ := hother
    rw [List.append_assoc, List.cons_append] at htail
    obtain ⟨rfl, rfl⟩ := digits_append_inj htail hw' hw.isDigit (hpoint _) hr
    exact absurd (hw.isDigit _ (hp rfl)) (by decide)
  · rw [List.append_assoc, List.cons_append] at hother
    refine (length_digits_le hother hw'.isDigit hw (hpoint _)).trans ?_
    simp
  · obtain ⟨tail, htail⟩ := hother
    simp only [List.append_assoc, List.cons_append] at htail
    obtain ⟨rfl, hfraction⟩ := digits_append_inj htail hw' hw (hpoint _) (hpoint _)
    have := length_digits_le ⟨tail, List.tail_eq_of_cons_eq hfraction⟩ hf' hf hr
    simpa using this

/-- No mantissa is in front where neither a digit is nor a point before a digit. -/
theorem not_mantissa_prefix {bytes : Bytes} (h : ∀ b ∈ bytes.head?, Bytes.isDigit b = false)
    (hp : ∀ rest, bytes = 0x2e :: rest → ∀ b ∈ rest.head?, Bytes.isDigit b = false)
    {mantissa whole fraction : Bytes} (hm : Mantissa mantissa whole fraction) :
    ¬mantissa <+: bytes := by
  intro hprefix
  rcases hm.cases_point with ⟨rfl, -, hw⟩ | ⟨rfl, hw, hf, hne⟩
  · exact hw.ne_nil (digits_eq_nil hprefix hw.isDigit h)
  · have hwhole := digits_eq_nil ((List.prefix_append _ _).trans hprefix) hw h
    subst hwhole
    obtain ⟨tail, rfl⟩ := hprefix
    exact hne (digits_eq_nil (List.prefix_append _ _) hf (hp _ rfl))

/-- Digits are scanned with the fraction and the exponent that follow. -/
theorem scanDecimal?_of_digits {whole rest fraction : Bytes} {n : ℕ}
    (hw : ∀ b ∈ whole, Bytes.isDigit b = true) (hr : ∀ b ∈ rest.head?, Bytes.isDigit b = false)
    (hf : scanFraction whole.length rest = (fraction, n)) :
    scanDecimal? (whole ++ rest) = if whole ++ fraction = [] then none else
      some (.decimal (Decimal.Digits.denoted (whole ++ fraction))
        ((scanExponent (rest.drop n)).1 - fraction.length),
          whole.length + n + (scanExponent (rest.drop n)).2) := by
  simp [scanDecimal?, takeWhile_digits hw hr, hf, Decimal.Digits.value_eq_denoted]

/-- The mantissa in front is scanned, with the exponent that follows. -/
theorem scanDecimal?_cases (bytes : Bytes) :
    (∃ mantissa whole fraction rest, bytes = mantissa ++ rest ∧ Mantissa mantissa whole fraction ∧
      (∀ b ∈ rest.head?, Bytes.isDigit b = false) ∧ (rest.head? = some 0x2e → 0x2e ∈ mantissa) ∧
      scanDecimal? bytes = some (.decimal (Decimal.Digits.denoted (whole ++ fraction))
        ((scanExponent rest).1 - fraction.length), mantissa.length + (scanExponent rest).2)) ∨
      scanDecimal? bytes = none ∧
        ∀ mantissa whole fraction, Mantissa mantissa whole fraction → ¬mantissa <+: bytes := by
  obtain ⟨whole, rest, rfl, hw, hr⟩ := exists_leading_digits bytes
  by_cases hpoint : rest.head? = some 0x2e
  · obtain ⟨tail, rfl⟩ := List.head?_eq_some_iff.1 hpoint
    obtain ⟨fraction, rest, rfl, hf, hr'⟩ := exists_leading_digits tail
    by_cases hne : whole ++ fraction = []
    · obtain ⟨rfl, rfl⟩ := List.append_eq_nil_iff.1 hne
      have hscan : scanFraction 0 (0x2e :: rest) = ([], 0) := by
        simpa [scanFraction] using takeWhile_digits hf hr'
      refine .inr ⟨scanDecimal?_of_digits hw hr hscan, fun _ _ _ => not_mantissa_prefix hr ?_⟩
      rintro _ ⟨⟩
      exact hr'
    · have hscan : scanFraction whole.length (0x2e :: (fraction ++ rest)) =
          (fraction, fraction.length + 1) := by
        have hlength : ¬whole.length + fraction.length = 0 := by
          rwa [← List.length_append, List.length_eq_zero_iff]
        simp only [scanFraction, takeWhile_digits hf hr', if_neg hlength]
      refine .inl ⟨_, whole, fraction, rest, by simp, .of_point hw hf hne, hr', by simp, ?_⟩
      rw [scanDecimal?_of_digits hw hr hscan, if_neg hne]
      simp [Nat.add_assoc]
  · have hscan : scanFraction whole.length rest = ([], 0) := by
      unfold scanFraction
      split
      · exact absurd rfl hpoint
      · rfl
    by_cases hne : whole = []
    · subst hne
      refine .inr ⟨scanDecimal?_of_digits hw hr hscan, fun _ _ _ => not_mantissa_prefix hr ?_⟩
      rintro _ rfl
      exact absurd rfl hpoint
    · refine .inl ⟨whole, whole, [], rest, rfl, .whole ⟨hne, hw⟩, hr, fun h => absurd h hpoint, ?_⟩
      rw [scanDecimal?_of_digits hw hr hscan, if_neg (by simpa using hne)]
      simp

theorem ExponentToken.head {exponent : Bytes} {e : ℤ} (h : ExponentToken value exponent e) :
    ∀ b ∈ exponent.head?, Bytes.isDigit b = false ∧ b ≠ 0x2e := by
  cases h with
  | empty => simp
  | digits sign hl hd =>
    rintro _ ⟨⟩
    rcases hl with rfl | rfl <;> decide

theorem ExponentToken.eq_nil {exponent rest : Bytes} {e : ℤ} {b : UInt8}
    (h : ExponentToken value exponent e) (hp : exponent <+: b :: rest)
    (hb : Bytes.isDigit b = true ∨ b = 0x2e) : exponent = [] := by
  cases exponent with
  | nil => rfl
  | cons first tail =>
    obtain ⟨rfl, -⟩ := List.cons_prefix_cons.1 hp
    obtain ⟨hdigit, hpoint⟩ := h.head first rfl
    simp [hdigit, hpoint] at hb

theorem longest_scanDecimal? (bytes : Bytes) :
    Longest (DecimalToken scannedValue) bytes (scanDecimal? bytes) := by
  rcases scanDecimal?_cases bytes with
    ⟨mantissa, whole, fraction, rest, rfl, hm, hr, hpoint, hscan⟩ | ⟨hscan, hno⟩
  · have hexponent := longest_scanExponent rest
    rw [hscan]
    generalize scanExponent rest = scanned at hexponent
    cases hexponent with
    | taken he hp hn hl =>
      refine .taken (.mk hm he) ((List.prefix_append_right_inj _).2 hp) (by simp [hn]) ?_
      rintro _ _ ⟨hm', he'⟩ hother
      rename_i mantissa' _ _ exponent' _
      have hfront := (List.prefix_append mantissa' exponent').trans hother
      have hlength := hm.length_le hm' hr hpoint hfront
      obtain ⟨tail, rfl⟩ :=
        List.prefix_of_prefix_length_le hfront (List.prefix_append _ _) hlength
      rw [List.append_assoc, List.prefix_append_right_inj] at hother
      cases tail with
      | nil => simpa using hl _ _ he' hother
      | cons b tail =>
        -- the exponent of a shorter mantissa is none
        rw [he'.eq_nil hother (hm.bytes b (by simp)), List.append_nil]
        exact hlength.trans (Nat.le_add_right _ _)
  · rw [hscan]
    refine .absent fun other _ h hp => ?_
    cases h with
    | mk hm => exact hno _ _ _ hm ((List.prefix_append _ _).trans hp)

/-! ## Words -/

theorem startsWithWord_iff {word bytes : Bytes} :
    startsWithWord word bytes = true ↔ ∃ token, token.map lowerByte = word ∧ token <+: bytes := by
  rw [startsWithWord, decide_eq_true_eq]
  constructor
  · intro h
    exact ⟨_, h, List.take_prefix _ _⟩
  · rintro ⟨token, rfl, hp⟩
    rw [List.length_map, ← List.prefix_iff_eq_take.1 hp]

theorem wordToken_iff {token : Bytes} {number : RealText} :
    WordToken token number ↔ (token.map lowerByte, number) ∈ realWords := by
  constructor
  · rintro (h | h) <;> simp_all [realWords]
    tauto
  · simp only [realWords, List.mem_cons, Prod.mk.injEq, List.not_mem_nil, or_false]
    rintro (⟨h, rfl⟩ | ⟨h, rfl⟩ | ⟨h, rfl⟩)
    · exact .infinity (by simp [h])
    · exact .infinity (by simp [h])
    · exact .nan h

theorem longest_scanWord? (bytes : Bytes) : Longest WordToken bytes (scanWord? bytes) := by
  rw [scanWord?]
  cases hfind : realWords.find? fun entry => startsWithWord entry.1 bytes with
  | none =>
    refine .absent fun token number h hp => ?_
    have hnot := List.find?_eq_none.1 hfind _ (wordToken_iff.1 h)
    exact hnot (startsWithWord_iff.2 ⟨token, rfl, hp⟩)
  | some entry =>
    obtain ⟨hstarts, before, after, hwords, hbefore⟩ := List.find?_eq_some_iff_append.1 hfind
    obtain ⟨token, hlower, hp⟩ := startsWithWord_iff.1 hstarts
    have hmem : (token.map lowerByte, entry.2) ∈ realWords := by simp [hwords, hlower]
    refine .taken (wordToken_iff.2 hmem) hp (by simp [← hlower]) fun other number h hother => ?_
    -- no word is longer than one that is sought before it
    have hsorted : realWords.Pairwise fun word next => next.1.length ≤ word.1.length := by decide
    have hword := wordToken_iff.1 h
    rw [hwords, List.pairwise_append, List.pairwise_cons] at hsorted
    rw [hwords, List.mem_append, List.mem_cons] at hword
    rw [← List.length_map lowerByte]
    rcases hword with hword | rfl | hword
    · have := hbefore _ hword
      simp [startsWithWord_iff.2 ⟨other, rfl, hother⟩] at this
    · exact le_rfl
    · exact hsorted.2.1.1 _ hword

/-! ## Signs before magnitudes -/

theorem DecimalToken.exists_cons {token : Bytes} {number : RealText}
    (h : DecimalToken value token number) :
    ∃ b tail, token = b :: tail ∧ (Bytes.isDigit b = true ∨ b = 0x2e) := by
  obtain @⟨mantissa, whole, fraction, exponent, e, hm, -⟩ := h
  obtain ⟨b, tail, rfl⟩ : ∃ b tail, mantissa = b :: tail := by
    refine List.exists_cons_of_ne_nil ?_
    rcases hm.cases_point with ⟨rfl, -, hw⟩ | ⟨rfl, -⟩
    · exact hw.ne_nil
    · simp
  exact ⟨b, tail ++ exponent, rfl, hm.bytes b List.mem_cons_self⟩

theorem WordToken.exists_cons {token : Bytes} {number : RealText} (h : WordToken token number) :
    ∃ b tail, token = b :: tail ∧ (lowerByte b = 0x69 ∨ lowerByte b = 0x6e) := by
  have hwords : ∀ entry ∈ realWords, entry.1.head? = some 0x69 ∨ entry.1.head? = some 0x6e := by
    decide
  have hhead := hwords _ (wordToken_iff.1 h)
  cases token with
  | nil => simp at hhead
  | cons b tail => exact ⟨b, tail, rfl, by simpa using hhead⟩

theorem lowerByte_eq_self {b : UInt8} (h : Bytes.isDigit b = true ∨ b = 0x2e) :
    lowerByte b = b ∧ b ≠ 0x2d ∧ b ≠ 0x2b ∧ b ≠ 0x69 ∧ b ≠ 0x6e := by
  grind [lowerByte, Bytes.isDigit]

theorem MagnitudeToken.splitSign_append {magnitude : Bytes} {number : RealText}
    (h : MagnitudeToken value magnitude number) (rest : Bytes) :
    splitSign (magnitude ++ rest) = (none, magnitude ++ rest) := by
  obtain ⟨b, tail, rfl, hminus, hplus⟩ :
      ∃ b tail, magnitude = b :: tail ∧ b ≠ 0x2d ∧ b ≠ 0x2b := by
    rcases h with h | h
    · obtain ⟨b, tail, rfl, hb⟩ := h.exists_cons
      obtain ⟨-, hminus, hplus, -⟩ := lowerByte_eq_self hb
      exact ⟨b, tail, rfl, hminus, hplus⟩
    · obtain ⟨b, tail, rfl, hb⟩ := h.exists_cons
      refine ⟨b, tail, rfl, ?_, ?_⟩ <;> rintro rfl <;> exact absurd hb (by decide)
  rw [List.cons_append]
  unfold splitSign
  split <;> simp_all

/-- Where texts of two languages are not in front at once, the first scan that finds one finds the
longest one of both. -/
theorem Longest.or {α : Type} {L M : Bytes → α → Prop} {bytes : Bytes}
    {first second : Option (α × ℕ)} (h : Longest L bytes first) (h' : Longest M bytes second)
    (hexclusive : ∀ token a other b, L token a → token <+: bytes → M other b → ¬other <+: bytes) :
    Longest (fun token a => L token a ∨ M token a) bytes (first.or second) := by
  cases h with
  | absent hno =>
    rw [Option.none_or]
    cases h' with
    | absent hno' =>
      refine .absent fun token a ht => ?_
      exact ht.elim (hno token a) (hno' token a)
    | taken hm hp hn hl =>
      refine .taken (.inr hm) hp hn fun other b ho hother => ?_
      exact ho.elim (fun ho => absurd hother (hno other b ho)) fun ho => hl other b ho hother
  | taken hl hp hn hlongest =>
    rw [Option.some_or]
    refine .taken (.inl hl) hp hn fun other b ho hother => ?_
    rcases ho with ho | ho
    · exact hlongest other b ho hother
    · exact absurd hother (hexclusive _ _ other b hl hp ho)

/-- A number in digits and a word are not in front at once. -/
theorem DecimalToken.not_wordToken {token other bytes : Bytes} {number number' : RealText}
    (h : DecimalToken value token number) (hp : token <+: bytes) (h' : WordToken other number') :
    ¬other <+: bytes := by
  intro hother
  obtain ⟨first, tail, rfl, hfirst⟩ := h.exists_cons
  obtain ⟨first', tail', rfl, hletter⟩ := h'.exists_cons
  obtain ⟨rest, rfl⟩ := hp
  obtain ⟨rfl, -⟩ := List.cons_prefix_cons.1 hother
  obtain ⟨hlower, -, -, hi, hn⟩ := lowerByte_eq_self hfirst
  rw [hlower] at hletter
  exact hletter.elim hi hn

theorem longest_magnitude (bytes : Bytes) :
    Longest (MagnitudeToken scannedValue) bytes ((scanDecimal? bytes).or (scanWord? bytes)) :=
  (longest_scanDecimal? bytes).or (longest_scanWord? bytes) fun _ _ _ _ h hp h' =>
    h.not_wordToken hp h'

/-- Scanning takes the longest text of a real number in front. -/
theorem longest_scanReal? (bytes : Bytes) :
    Longest (RealToken scannedValue) bytes
      ((scanReal? bytes).map fun scanned => ((scanned.1, scanned.2.1), scanned.2.2)) := by
  have hbytes := signText_append_splitSign bytes
  have hbody := longest_magnitude (splitSign bytes).2
  have hscan : ((scanReal? bytes).map fun scanned => ((scanned.1, scanned.2.1), scanned.2.2)) =
      ((scanDecimal? (splitSign bytes).2).or (scanWord? (splitSign bytes).2)).map
        fun scanned => ((decide ((splitSign bytes).1 = some true), scanned.1),
          (signText (splitSign bytes).1).length + scanned.2) := by
    simp only [scanReal?, Option.map_map, length_signText]
    rfl
  -- the sign of any text in front is the one that is split off
  have hsign : ∀ other read, RealToken scannedValue other read → other <+: bytes →
      ∃ magnitude number, MagnitudeToken scannedValue magnitude number ∧
        other = signText (splitSign bytes).1 ++ magnitude ∧ magnitude <+: (splitSign bytes).2 := by
    rintro _ _ ⟨sign, h⟩ ⟨tail, rfl⟩
    rename_i magnitude number
    rw [List.append_assoc, splitSign_signText sign (h.splitSign_append tail)]
    exact ⟨magnitude, number, h, rfl, List.prefix_append _ _⟩
  rw [hscan]
  generalize (scanDecimal? (splitSign bytes).2).or (scanWord? (splitSign bytes).2) = scanned
    at hbody
  cases hbody with
  | absent hno =>
    refine .absent fun other read h hp => ?_
    obtain ⟨magnitude, number, h, -, hp⟩ := hsign other read h hp
    exact hno magnitude number h hp
  | taken h hp hn hl =>
    refine .taken (.mk (splitSign bytes).1 h) ?_ (by simp [hn]) fun other read ho hother => ?_
    · conv => rhs; rw [← hbytes]
      exact (List.prefix_append_right_inj _).2 hp
    · obtain ⟨magnitude, number, h, rfl, hp⟩ := hsign other read ho hother
      simpa using hl magnitude number h hp

/-! ## One number for a text -/

theorem ExponentToken.unique {exponent : Bytes} {e e' : ℤ} (h : ExponentToken value exponent e)
    (h' : ExponentToken value exponent e') : e = e' := by
  cases h with
  | empty =>
    cases h'
    rfl
  | digits sign hl hd =>
    rename_i letter digits
    generalize htoken : letter :: (signText sign ++ digits) = token at h'
    cases h' with
    | empty => cases htoken
    | digits sign' hl' hd' =>
      obtain ⟨-, hbody⟩ := List.cons.inj htoken
      obtain ⟨rfl, rfl⟩ := signText_append_inj hbody (by simpa using splitSign_digits hd [])
        (by simpa using splitSign_digits hd' [])
      rfl

theorem Mantissa.unique {mantissa whole fraction whole' fraction' : Bytes}
    (h : Mantissa mantissa whole fraction) (h' : Mantissa mantissa whole' fraction') :
    whole = whole' ∧ fraction = fraction' := by
  rcases h.cases_point with ⟨rfl, rfl, hw⟩ | ⟨rfl, hw, hf, -⟩ <;>
    rcases h'.cases_point with ⟨htext, rfl, hw'⟩ | ⟨htext, hw', hf', -⟩
  · exact ⟨htext, rfl⟩
  · exact absurd (hw.isDigit 0x2e (by simp [htext])) (by decide)
  · exact absurd (hw'.isDigit 0x2e (by rw [← htext]; simp)) (by decide)
  · obtain ⟨rfl, hpoint⟩ := digits_append_inj htext hw hw' (by rintro _ ⟨⟩; decide)
      (by rintro _ ⟨⟩; decide)
    exact ⟨rfl, List.tail_eq_of_cons_eq hpoint⟩

theorem DecimalToken.unique {token : Bytes} {number number' : RealText}
    (h : DecimalToken value token number) (h' : DecimalToken value token number') :
    number = number' := by
  obtain @⟨mantissa, whole, fraction, exponent, e, hm, he⟩ := h
  generalize htoken : mantissa ++ exponent = token at h'
  obtain @⟨mantissa', whole', fraction', exponent', e', hm', he'⟩ := h'
  have hle : ∀ {m w f x m' w' f' x' : Bytes} {n : ℤ}, Mantissa m w f → Mantissa m' w' f' →
      ExponentToken value x n → m ++ x = m' ++ x' → m'.length ≤ m.length := by
    intro m w f x m' w' f' x' n hm hm' hx heq
    exact hm.length_le hm' (fun b hb => (hx.head b hb).1) (fun hb => absurd rfl (hx.head _ hb).2)
      (heq ▸ List.prefix_append _ _)
  obtain ⟨rfl, rfl⟩ := List.append_inj htoken
    (le_antisymm (hle hm' hm he' htoken.symm) (hle hm hm' he htoken))
  obtain ⟨rfl, rfl⟩ := hm.unique hm'
  rw [he.unique he']

theorem WordToken.unique {token : Bytes} {number number' : RealText}
    (h : WordToken token number) (h' : WordToken token number') : number = number' := by
  have hwords : ∀ entry ∈ realWords, ∀ entry' ∈ realWords, entry.1 = entry'.1 →
      entry.2 = entry'.2 := by decide
  exact hwords _ (wordToken_iff.1 h) _ (wordToken_iff.1 h') rfl

theorem MagnitudeToken.unique {token : Bytes} {number number' : RealText}
    (h : MagnitudeToken value token number) (h' : MagnitudeToken value token number') :
    number = number' := by
  rcases h with h | h <;> rcases h' with h' | h'
  · exact h.unique h'
  · exact absurd (List.prefix_refl _) (h.not_wordToken (List.prefix_refl _) h')
  · exact absurd (List.prefix_refl _) (h'.not_wordToken (List.prefix_refl _) h)
  · exact h.unique h'

/-- A text is that of one real number. -/
theorem RealToken.unique {token : Bytes} {read read' : Bool × RealText}
    (h : RealToken value token read) (h' : RealToken value token read') : read = read' := by
  obtain @⟨magnitude, number, sign, hm⟩ := h
  generalize htoken : signText sign ++ magnitude = token at h'
  obtain @⟨magnitude', number', sign', hm'⟩ := h'
  obtain ⟨rfl, rfl⟩ := signText_append_inj htoken (by simpa using hm.splitSign_append [])
    (by simpa using hm'.splitSign_append [])
  rw [hm.unique hm']

/-! ## What exponents stand for -/

/-- The numbers of one text in which the digits of an exponent stand for two numbers. -/
inductive Reread (value value' : Bytes → ℕ) (token : Bytes) : RealText → RealText → Prop
  | same (number : RealText) : Reread value value' token number number
  | exponent {front digits : Bytes} {letter : UInt8} {n places : ℕ} (sign : Option Bool)
    (ht : token = front ++ letter :: (signText sign ++ digits)) (hl : lowerByte letter = 0x65)
    (hd : digits.IsDigits) (hn : n < 10 ^ front.length) :
    Reread value value' token (.decimal n (signedNumber sign (value digits) - places))
      (.decimal n (signedNumber sign (value' digits) - places))

theorem Mantissa.denoted_lt {mantissa whole fraction : Bytes}
    (h : Mantissa mantissa whole fraction) :
    Digits.denoted (whole ++ fraction) < 10 ^ mantissa.length := by
  have hdigits : ∀ b ∈ whole ++ fraction, Bytes.isDigit b = true := by
    cases h with
    | whole hw => simpa using hw.isDigit
    | point hw hf => exact List.forall_mem_append.2 ⟨hw.isDigit, hf⟩
    | fraction hf => exact hf.isDigit
  have hlength : (whole ++ fraction).length ≤ mantissa.length := by cases h <;> simp
  exact (Digits.denoted_lt hdigits).trans_le (Nat.pow_le_pow_right (by omega) hlength)

/-- A text is one of a real number whatever the digits of its exponent stand for. -/
theorem RealToken.exists_reread (value' : Bytes → ℕ) {token : Bytes} {negative : Bool}
    {number : RealText} (h : RealToken value token (negative, number)) :
    ∃ own, RealToken value' token (negative, own) ∧ Reread value value' token number own := by
  obtain ⟨sign, hdecimal | hword⟩ := h
  · obtain ⟨hm, he⟩ := hdecimal
    cases he with
    | empty => exact ⟨_, .mk sign (.inl (.mk hm .empty)), .same _⟩
    | digits turn hl hd =>
      refine ⟨_, .mk sign (.inl (.mk hm (.digits turn hl hd))),
        .exponent turn (List.append_assoc _ _ _).symm (lowerByte_eq_e_iff.2 hl) hd ?_⟩
      refine hm.denoted_lt.trans_le (Nat.pow_le_pow_right (by omega) ?_)
      simp
  · exact ⟨_, .mk sign (.inr hword), .same _⟩

/-- Whether the digits of the exponent behind a text, if there is one, denote less than a limit. -/
def ExponentBelow (limit : ℕ) (token : Bytes) : Prop :=
  ∀ front letter sign digits, token = front ++ letter :: (signText sign ++ digits) →
    lowerByte letter = 0x65 → digits.IsDigits → Digits.denoted digits < limit

/-- An exponent below the limit is scanned as it is. -/
theorem Reread.eq_of_exponentBelow {token : Bytes} {number own : RealText}
    (h : Reread scannedValue Digits.denoted token number own)
    (hbelow : ExponentBelow exponentLimit token) : number = own := by
  cases h with
  | same => rfl
  | exponent sign ht hl hd =>
    have hlt := hbelow _ _ sign _ ht hl hd
    rw [scannedValue, Digits.cappedValue_eq (by rwa [Digits.value_eq_denoted]),
      Digits.value_eq_denoted]

/-- A scan takes the longest text of a language in which a text stands for one thing. -/
theorem Longest.eq_some_iff {α : Type} {L : Bytes → α → Prop} {bytes : Bytes}
    {scanned : Option (α × ℕ)} (h : Longest L bytes scanned)
    (hunique : ∀ token a b, L token a → L token b → a = b) {a : α} {n : ℕ} :
    scanned = some (a, n) ↔ ∃ token, L token a ∧ token <+: bytes ∧ token.length = n ∧
      ∀ other b, L other b → other <+: bytes → other.length ≤ n := by
  cases h with
  | absent hno =>
    constructor
    · nofun
    · rintro ⟨token, ht, hp, -⟩
      exact absurd hp (hno token a ht)
  | taken ht hp hn hl =>
    rename_i token a' n'
    constructor
    · rintro ⟨⟩
      exact ⟨token, ht, hp, hn, hl⟩
    · rintro ⟨other, ho, hother, rfl, hl'⟩
      have hlength := le_antisymm (hl other a ho hother) (hn ▸ hl' token a' ht hp)
      obtain rfl : other = token :=
        (List.prefix_of_prefix_length_le hother hp (by omega)).eq_of_length (by omega)
      rw [hunique other a' a ht ho, hlength]

theorem scanReal?_eq_some_iff {bytes : Bytes} {negative : Bool} {number : RealText} {n : ℕ} :
    scanReal? bytes = some (negative, number, n) ↔
      ∃ token, RealToken scannedValue token (negative, number) ∧ token <+: bytes ∧
        token.length = n ∧
          ∀ other read, RealToken scannedValue other read → other <+: bytes → other.length ≤ n := by
  rw [← (longest_scanReal? bytes).eq_some_iff fun _ _ _ => RealToken.unique]
  simp

example : scanReal? (Bytes.ofText "-3.e+x") = some (true, .decimal 3 0, 3) := by decide +kernel

theorem scanReal?_eq_none_iff {bytes : Bytes} :
    scanReal? bytes = none ↔
      ∀ token read, RealToken scannedValue token read → ¬token <+: bytes := by
  have h := longest_scanReal? bytes
  cases hscan : scanReal? bytes with
  | none =>
    rw [hscan] at h
    cases h with
    | absent hno => exact iff_of_true rfl hno
  | some scanned =>
    rw [hscan] at h
    cases h with
    | taken ht hp => exact iff_of_false nofun fun hno => hno _ _ ht hp

/-! ## The grammar of parsers -/

/-- Digits with a point before, among or behind them, as parsers of real numbers take them. -/
inductive ParsableDigits : Bytes → Prop
  | whole {whole : Bytes} (hw : whole.IsDigits) : ParsableDigits whole
  | whole_point {whole fraction : Bytes} (hw : whole.IsDigits)
    (hf : ∀ b ∈ fraction, Bytes.isDigit b = true) : ParsableDigits (whole ++ 0x2e :: fraction)
  | point_fraction {whole fraction : Bytes} (hw : ∀ b ∈ whole, Bytes.isDigit b = true)
    (hf : fraction.IsDigits) : ParsableDigits (whole ++ 0x2e :: fraction)

/-- The texts that parsers of real numbers take: a sign or none before a word or before digits, and
an exponent or none behind the digits. Letters are of either case. -/
inductive ParsableReal : Bytes → Prop
  | word {sign word : Bytes} (hs : sign ∈ [[], [0x2b], [0x2d]])
    (hw : word.map lowerByte ∈ ["inf", "infinity", "nan"].map Bytes.ofText) :
    ParsableReal (sign ++ word)
  | number {sign digits : Bytes} (hs : sign ∈ [[], [0x2b], [0x2d]]) (hd : ParsableDigits digits) :
    ParsableReal (sign ++ digits)
  | scientific {sign digits place : Bytes} {letter : UInt8} {turn : Bytes}
    (hs : sign ∈ [[], [0x2b], [0x2d]]) (hd : ParsableDigits digits) (hl : lowerByte letter = 0x65)
    (ht : turn ∈ [[], [0x2b], [0x2d]]) (hp : place.IsDigits) :
    ParsableReal (sign ++ (digits ++ letter :: (turn ++ place)))

theorem signText_mem (sign : Option Bool) : signText sign ∈ [[], [0x2b], [0x2d]] := by
  rcases sign with _ | (_ | _) <;> decide

theorem Mantissa.parsableDigits {mantissa whole fraction : Bytes}
    (h : Mantissa mantissa whole fraction) : ParsableDigits mantissa := by
  cases h with
  | whole hw => exact .whole hw
  | point hw hf => exact .whole_point hw hf
  | fraction hf => exact @ParsableDigits.point_fraction [] _ (List.forall_mem_nil _) hf

/-- What is scanned is parsed. -/
theorem RealToken.parsable {token : Bytes} {read : Bool × RealText}
    (h : RealToken value token read) : ParsableReal token := by
  obtain ⟨sign, hdecimal | hword⟩ := h
  · obtain ⟨hm, he⟩ := hdecimal
    cases he with
    | empty =>
      rw [List.append_nil]
      exact .number (signText_mem sign) hm.parsableDigits
    | digits turn hl hd =>
      exact .scientific (signText_mem sign) hm.parsableDigits (lowerByte_eq_e_iff.2 hl)
        (signText_mem turn) hd
  · refine .word (signText_mem sign) ?_
    cases hword with
    | infinity h => exact List.mem_append_left [Bytes.ofText "nan"] h
    | nan h => simp [h]

end RecordStore
