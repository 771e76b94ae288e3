import RecordStore.Format.Parse
import RecordStore.Proofs.Overflows
import RecordStore.Proofs.WholeChunks

/-!
# Blanks around numbers

Records of numbers are read as if the blanks around them were not there. Reading with blanks behind
goes along with reading without them until a separator is met at the end; then both have nothing
but blanks left, of which a separator may take some.

## Main definitions

* `Cursor.Padded` — a cursor that has more blanks around what is left.
* `Layout.IsNumeric` — layouts of numbers alone.

## Main statements

* `decodeScalar_padded`, `decodeFields_padded` — what is read with and without blanks.
* `Shape.decode_padded` — a struct of numbers is read with blanks as without them.
* `decode_between_blanks` — blanks around a record of numbers change nothing.
-/

namespace RecordStore

def Bytes.IsBlanks (bytes : Bytes) : Prop := ∀ b ∈ bytes, Bytes.isBlank b = true

theorem not_blank_of_digit {b : UInt8} (h : Bytes.isDigit b = true) : Bytes.isBlank b = false := by
  grind [Bytes.isDigit, Bytes.isBlank]

/-! ## Tokens hold no blanks -/

theorem lowerByte_of_blank {b : UInt8} (h : Bytes.isBlank b = true) : lowerByte b = b := by
  grind [Bytes.isBlank, lowerByte]

theorem Bytes.IsDigits.not_blank {digits : Bytes} (h : digits.IsDigits) :
    ∀ b ∈ digits, Bytes.isBlank b = false :=
  fun b hb => not_blank_of_digit (h.isDigit b hb)

theorem not_blank_signText (sign : Option Bool) :
    ∀ b ∈ signText sign, Bytes.isBlank b = false := by
  rcases sign with _ | (_ | _) <;> simp [signText, Bytes.isBlank]

theorem Mantissa.not_blank {mantissa whole fraction : Bytes}
    (h : Mantissa mantissa whole fraction) : ∀ b ∈ mantissa, Bytes.isBlank b = false := by
  intro b hb
  rcases h.bytes b hb with hdigit | rfl
  · exact not_blank_of_digit hdigit
  · rfl

theorem ExponentToken.not_blank {exponent : Bytes} {value : Bytes → ℕ} {e : ℤ}
    (h : ExponentToken value exponent e) : ∀ b ∈ exponent, Bytes.isBlank b = false := by
  cases h with
  | empty => simp
  | digits sign hl hd =>
    simp only [List.mem_cons, List.mem_append]
    rintro b (rfl | hb | hb)
    · rcases hl with rfl | rfl <;> decide
    · exact not_blank_signText sign b hb
    · exact hd.not_blank b hb

theorem WordToken.not_blank {word : Bytes} {number : RealText} (h : WordToken word number) :
    ∀ b ∈ word, Bytes.isBlank b = false := by
  have hwords : ∀ entry ∈ realWords, ∀ b ∈ entry.1, Bytes.isBlank b = false := by
    decide +kernel
  intro b hb
  by_contra hblank
  rw [Bool.not_eq_false] at hblank
  have hmem : b ∈ word.map lowerByte :=
    List.mem_map.2 ⟨b, hb, lowerByte_of_blank hblank⟩
  simp [hwords _ (wordToken_iff.1 h) b hmem] at hblank

theorem RealToken.not_blank {token : Bytes} {value : Bytes → ℕ} {read : Bool × RealText}
    (h : RealToken value token read) : ∀ b ∈ token, Bytes.isBlank b = false := by
  obtain ⟨sign, hdecimal | hword⟩ := h
  · obtain ⟨hm, he⟩ := hdecimal
    simp only [List.mem_append]
    rintro b (hb | hb | hb)
    · exact not_blank_signText sign b hb
    · exact hm.not_blank b hb
    · exact he.not_blank b hb
  · simp only [List.mem_append]
    rintro b (hb | hb)
    · exact not_blank_signText sign b hb
    · exact hword.not_blank b hb

/-- What holds no blank is in front of blanks only if it ends before them. -/
theorem prefix_of_prefix_append {token bytes behind : Bytes} (h : token <+: bytes ++ behind)
    (ht : ∀ b ∈ token, Bytes.isBlank b = false) (hb : behind.IsBlanks) : token <+: bytes := by
  rcases le_total token.length bytes.length with hle | hle
  · exact List.prefix_of_prefix_length_le h (List.prefix_append _ _) hle
  · obtain ⟨tail, rfl⟩ := List.prefix_of_prefix_length_le (List.prefix_append _ _) h hle
    rw [List.prefix_append_right_inj] at h
    cases tail with
    | nil => simp
    | cons b tail =>
      have := ht b (by simp)
      simp [hb b (h.subset List.mem_cons_self)] at this

/-! ## One number -/

theorem not_digit_append {rest behind : Bytes} (hr : ∀ b ∈ rest.head?, Bytes.isDigit b = false)
    (hb : behind.IsBlanks) : ∀ b ∈ (rest ++ behind).head?, Bytes.isDigit b = false := by
  cases rest with
  | nil =>
    intro b hhead
    by_contra hdigit
    rw [Bool.not_eq_false] at hdigit
    have hblank := hb b (List.mem_of_mem_head? hhead)
    rw [not_blank_of_digit hdigit] at hblank
    cases hblank
  | cons b rest => exact hr

/-- An integer is scanned in the same way if blanks are put behind. -/
theorem scanInteger_append {signed : Bool} {bytes behind : Bytes} {t : IntegerText}
    (h : scanInteger signed bytes = .ok t) (hb : behind.IsBlanks) :
    ∃ t', scanInteger signed (bytes ++ behind) = .ok t' ∧ t'.number = t.number ∧
      t'.length = t.length ∧ t.length ≤ bytes.length := by
  obtain ⟨token, rest, rfl, hlength, htoken, hr⟩ := exists_token_of_scanInteger h
  obtain ⟨t', hscan, hnumber, hlength'⟩ := htoken.exists_scanInteger (not_digit_append hr hb)
  refine ⟨t', by rwa [List.append_assoc], hnumber, by rw [hlength', hlength], ?_⟩
  simp [← hlength]

variable {c c₁ d : Cursor} {behind : Bytes}

theorem readInteger_append {code : Char} {signed : Bool} {low high n : ℤ}
    (h : readInteger code signed low high c = .ok n c₁)
    (hd : d.skipBlanks.rest = c.skipBlanks.rest ++ behind) (hb : behind.IsBlanks) :
    ∃ d₁, readInteger code signed low high d = .ok n d₁ ∧ d₁.rest = c₁.rest ++ behind := by
  obtain ⟨t, hscan, hnumber, hbounds, rfl⟩ := readInteger_eq_ok_iff.1 h
  obtain ⟨t', hscan', hnumber', hlength, hle⟩ := scanInteger_append hscan hb
  refine ⟨_, readInteger_eq_ok_iff.2 ⟨t', by rwa [hd], by rw [hnumber', hnumber], hbounds, rfl⟩, ?_⟩
  simp only [Cursor.advance, hd, hlength]
  exact List.drop_append_of_le_length hle

theorem readRealText_append {code : Char} {read : Bool × RealText × Bytes}
    (h : readRealText code c = .ok read c₁)
    (hd : d.skipBlanks.rest = c.skipBlanks.rest ++ behind) (hb : behind.IsBlanks) :
    ∃ d₁, readRealText code d = .ok read d₁ ∧ d₁.rest = c₁.rest ++ behind := by
  obtain ⟨negative, number, token⟩ := read
  obtain ⟨ht, hp, hl, rfl⟩ := readRealText_eq_ok_iff.1 h
  refine ⟨_, readRealText_eq_ok_iff.2 ⟨ht, ?_, fun other read ho hother => ?_, rfl⟩, ?_⟩
  · rw [hd]
    exact hp.trans (List.prefix_append _ _)
  · rw [hd] at hother
    exact hl other read ho (prefix_of_prefix_append hother ho.not_blank hb)
  · simp only [Cursor.advance, hd]
    exact List.drop_append_of_le_length hp.length_le

/-- A number is read in the same way if blanks are put behind. -/
theorem decodeScalar_append {prim : Prim} (h : prim.skipsBlanks = true) {s : Scalar}
    (hread : decodeScalar prim c = .ok s c₁)
    (hd : d.skipBlanks.rest = c.skipBlanks.rest ++ behind) (hb : behind.IsBlanks) :
    ∃ d₁, decodeScalar prim d = .ok s d₁ ∧ d₁.rest = c₁.rest ++ behind := by
  cases hk : prim.kind with
  | raw => simp [Prim.skipsBlanks, hk] at h
  | unit => simp [Prim.skipsBlanks, hk] at h
  | integer low high =>
    simp only [decodeScalar, hk, Scan.bind_eq_ok, Scan.pure_eq_ok] at hread ⊢
    obtain ⟨n, c₂, hn, rfl, rfl⟩ := hread
    obtain ⟨d₁, hn', hrest⟩ := readInteger_append hn hd hb
    exact ⟨d₁, ⟨n, d₁, hn', rfl, rfl⟩, hrest⟩
  | real format precision =>
    simp only [decodeScalar, hk, Scan.bind_eq_ok, Scan.pure_eq_ok] at hread ⊢
    obtain ⟨bits, c₂, hbits, rfl, rfl⟩ := hread
    simp only [readReal, Scan.bind_eq_ok] at hbits ⊢
    obtain ⟨⟨negative, number, token⟩, c₃, htext, hbits⟩ := hbits
    obtain ⟨d₃, htext', hrest⟩ := readRealText_append htext hd hb
    cases hnumber : number.bits? format with
    | none => simp [hnumber, Scan.throw_apply] at hbits
    | some magnitude =>
      simp only [hnumber, Scan.pure_eq_ok] at hbits
      obtain ⟨rfl, rfl⟩ := hbits
      refine ⟨d₃, ⟨_, d₃, ⟨_, d₃, htext', ?_⟩, rfl, rfl⟩, hrest⟩
      simp only [hnumber, Scan.pure_eq_ok, and_self]

/-! ## Padded cursors -/

/-- Whether a cursor has what another one has left, with more blanks around it; or both have
nothing but blanks left. -/
inductive Cursor.Padded (c d : Cursor) : Prop
  | around {front behind : Bytes} (hf : front.IsBlanks) (hb : behind.IsBlanks)
    (h : d.rest = front ++ c.rest ++ behind)
  | blank (hc : c.onlyBlanks = true) (hd : d.onlyBlanks = true)

theorem Cursor.Padded.of_append (hb : behind.IsBlanks) (h : d.rest = c.rest ++ behind) :
    Cursor.Padded c d :=
  @Cursor.Padded.around c d [] behind (List.forall_mem_nil _) hb h

theorem Cursor.Padded.onlyBlanks_iff (h : Cursor.Padded c d) :
    d.onlyBlanks = true ↔ c.onlyBlanks = true := by
  cases h with
  | around hf hb h =>
    simp only [onlyBlanks, h, List.all_append, Bool.and_eq_true, List.all_eq_true]
    exact ⟨fun hd => hd.1.2, fun hc => ⟨⟨hf, hc⟩, hb⟩⟩
  | blank hc hd => exact iff_of_true hd hc

/-- A number is read with the blanks as without them. -/
theorem decodeScalar_padded {prim : Prim} (h : prim.skipsBlanks = true) {s : Scalar}
    (hread : decodeScalar prim c = .ok s c₁) (hpad : Cursor.Padded c d) :
    ∃ d₁ behind, decodeScalar prim d = .ok s d₁ ∧ behind.IsBlanks ∧
      d₁.rest = c₁.rest ++ behind := by
  cases hpad with
  | around hf hb hd =>
    rename_i front behind
    obtain ⟨blanks, hc, hblanks, hstop, -⟩ := c.exists_blanks
    obtain ⟨b, tail, hrest⟩ : ∃ b tail, c.skipBlanks.rest = b :: tail := by
      rw [← decodeScalar_skipBlanks h] at hread
      have := length_rest_decodeScalar_lt hread
      exact List.exists_cons_of_length_pos (by omega)
    have happ : d.rest = (front ++ blanks) ++ (c.skipBlanks.rest ++ behind) := by
      rw [hd, hc]
      simp
    have hskip := Cursor.skipBlanks_of_append happ
      (by simpa [or_imp, forall_and] using ⟨hf, hblanks⟩) (by simpa [hrest] using hstop)
    obtain ⟨d₁, hread', hrest'⟩ := decodeScalar_append h hread (congrArg Cursor.rest hskip) hb
    exact ⟨d₁, behind, hread', hb, hrest'⟩
  | blank hc => exact absurd hread (decodeScalar_ne_ok h hc s)

/-- Where blanks are skipped, a separator stands in front, or nothing but blanks is left. -/
theorem meetSeparator_cases {sep : Bytes} (h : meetSeparator sep true c = .ok () c₁) :
    c.rest = sep ++ c₁.rest ∨ c.onlyBlanks = true ∧ c₁ = c := by
  simp only [meetSeparator, Scan.bind_apply, Scan.get_apply, Bool.true_and] at h
  split at h
  · rename_i hsep
    obtain ⟨rest, hrest⟩ := List.isPrefixOf_iff_prefix.1 hsep
    simp only [Scan.modify_apply, EStateM.Result.ok.injEq, true_and] at h
    left
    rw [← h, Cursor.advance, ← hrest, List.drop_left]
  · split at h
    · rename_i hleft
      simp only [Scan.pure_apply, EStateM.Result.ok.injEq, true_and] at h
      refine .inr ⟨?_, h.symm⟩
      rcases Bool.or_eq_true_iff.1 hleft with hend | hblank
      · simp [Cursor.onlyBlanks, List.isEmpty_iff.1 hend]
      · exact hblank
    · simp [Scan.throw_apply] at h

/-- A separator is met in nothing but blanks, of which it may take some. -/
theorem meetSeparator_of_onlyBlanks (sep : Bytes) (hd : d.onlyBlanks = true) :
    ∃ d₁, meetSeparator sep true d = .ok () d₁ ∧ d₁.onlyBlanks = true := by
  by_cases hsep : sep <+: d.rest
  · obtain ⟨rest, hrest⟩ := hsep
    obtain ⟨d₁, hmeet, hrest'⟩ := meetSeparator_front true hrest.symm
    exact ⟨d₁, hmeet, Cursor.onlyBlanks_of_suffix hd (meetSeparator_suffix hmeet)⟩
  · refine ⟨d, ?_, hd⟩
    simp [meetSeparator, Scan.bind_apply, Scan.get_apply, List.isPrefixOf_iff_prefix, hsep, hd,
      Scan.pure_apply]

/-- A separator is met with blanks behind as without them. Where it is met without standing there,
it may take some of the blanks. -/
theorem meetSeparator_padded {sep : Bytes} (h : meetSeparator sep true c = .ok () c₁)
    (hb : behind.IsBlanks) (hd : d.rest = c.rest ++ behind) :
    ∃ d₁, meetSeparator sep true d = .ok () d₁ ∧ Cursor.Padded c₁ d₁ := by
  rcases meetSeparator_cases h with hsep | ⟨hblank, rfl⟩
  · rw [hsep, List.append_assoc] at hd
    obtain ⟨d₁, hmeet, hrest⟩ := meetSeparator_front true hd
    exact ⟨d₁, hmeet, .of_append hb hrest⟩
  · have hpad : Cursor.Padded c₁ d := .of_append hb hd
    obtain ⟨d₁, hmeet, hd₁⟩ := meetSeparator_of_onlyBlanks sep (hpad.onlyBlanks_iff.2 hblank)
    exact ⟨d₁, hmeet, .blank hblank hd₁⟩

/-! ## Several numbers -/

theorem decodeFields_padded {fields : List Field}
    (h : ∀ field ∈ fields, field.prim.skipsBlanks = true) {scalars : List Scalar}
    (hread : decodeFields true fields c = .ok scalars c₁) (hpad : Cursor.Padded c d) :
    ∃ d₁, decodeFields true fields d = .ok scalars d₁ ∧ Cursor.Padded c₁ d₁ := by
  induction fields generalizing c d scalars with
  | nil =>
    simp only [decodeFields, Scan.pure_eq_ok] at hread ⊢
    obtain ⟨rfl, rfl⟩ := hread
    exact ⟨d, ⟨rfl, rfl⟩, hpad⟩
  | cons field fields ih =>
    obtain ⟨hfield, hfields⟩ := List.forall_mem_cons.1 h
    simp only [decodeFields, Scan.bind_eq_ok, Scan.pure_eq_ok] at hread ⊢
    obtain ⟨s, c₂, hscalar, _, c₃, hmeet, rest, c₄, hrest, rfl, rfl⟩ := hread
    obtain ⟨d₂, behind, hscalar', hb, hd₂⟩ := decodeScalar_padded hfield hscalar hpad
    obtain ⟨d₃, hmeet', hpad₃⟩ := meetSeparator_padded hmeet hb hd₂
    obtain ⟨d₄, hrest', hpad₄⟩ := ih hfields hrest hpad₃
    exact ⟨d₄, ⟨s, d₂, hscalar', (), d₃, hmeet', rest, d₄, hrest', rfl, rfl⟩, hpad₄⟩

/-- Whether a shape is led by nothing and holds numbers alone, at least one. No shape of a format
is without fields (`Separated.isHollow_eq_false`). -/
structure Shape.IsNumeric (s : Shape) : Prop where
  leading : s.leading = []
  ne_nil : s.fields ≠ []
  skipsBlanks : ∀ field ∈ s.fields, field.prim.skipsBlanks = true

namespace Shape

variable {s : Shape}

theorem IsNumeric.skipsBlanks_eq (h : s.IsNumeric) : s.skipsBlanks = true := by
  obtain ⟨field, fields, hfields⟩ := List.exists_cons_of_ne_nil h.ne_nil
  have := h.skipsBlanks field (by simp [hfields])
  simp [Shape.skipsBlanks, h.leading, hfields, this]

theorem IsNumeric.isRawByte_eq (h : s.IsNumeric) : s.isRawByte = false := by
  have := h.skipsBlanks
  unfold isRawByte
  split <;> simp_all [Prim.skipsBlanks, Prim.kind]

theorem IsNumeric.endsInNumber_eq (h : s.IsNumeric) : s.endsInNumber = true := by
  have := h.skipsBlanks _ (List.getLast_mem h.ne_nil)
  simp [endsInNumber, List.getLast?_eq_some_getLast h.ne_nil, this]

/-- A struct of numbers is read with the blanks as without them. -/
theorem decode_padded (h : s.IsNumeric) {item : List Scalar} (hread : s.decode c = .ok item c₁)
    (hpad : Cursor.Padded c d) : ∃ d₁, s.decode d = .ok item d₁ ∧ Cursor.Padded c₁ d₁ := by
  simp only [decode, h.leading, h.skipsBlanks_eq, Scan.bind_eq_ok] at hread ⊢
  obtain ⟨_, c₂, hmeet, hfields⟩ := hread
  obtain ⟨d₂, hmeet', hd₂⟩ := meetSeparator_front true (List.nil_append d.rest).symm
  have hc₂ : c₂.rest = c.rest := by
    rcases meetSeparator_cases hmeet with hrest | ⟨-, rfl⟩
    · exact hrest.symm
    · rfl
  have hpad₂ : Cursor.Padded c₂ d₂ := by
    cases hpad with
    | around hf hb hd => exact .around hf hb (by rw [hd₂, hd, hc₂])
    | blank hc hd =>
      exact .blank (by rwa [Cursor.onlyBlanks, hc₂]) (by rwa [Cursor.onlyBlanks, hd₂])
  obtain ⟨d₁, hfields', hpad₁⟩ := decodeFields_padded h.skipsBlanks hfields hpad₂
  exact ⟨d₁, ⟨(), d₂, hmeet', hfields'⟩, hpad₁⟩

/-- A run of structs of numbers ends with the blanks where it ends without them. -/
theorem IsNumeric.exhausted_eq (h : s.IsNumeric) (hpad : Cursor.Padded c d) :
    s.exhausted d = s.exhausted c := by
  have hblank : ∀ c : Cursor, s.exhausted c = c.onlyBlanks := by
    intro c
    simp only [exhausted, h.skipsBlanks_eq, Bool.true_and]
    cases hrest : c.rest <;> simp [Cursor.atEnd, Cursor.onlyBlanks, hrest]
  rw [Bool.eq_iff_iff, hblank, hblank, hpad.onlyBlanks_iff]

/-- Structs of numbers up to the end are read with the blanks as without them. -/
theorem decodeRun_padded (h : s.IsNumeric) {items : List (List Scalar)}
    (hread : s.decodeRun c = .ok items) (hpad : Cursor.Padded c d) :
    s.decodeRun d = .ok items := by
  fun_induction s.decodeRun c generalizing d items with
  | case1 c hstop =>
    rw [decodeRun, dif_pos (by rwa [h.exhausted_eq hpad])]
    exact hread
  | case2 c hstop fault c' hitem => cases hread
  | case3 c hstop item c' hitem ih =>
    obtain ⟨rest, hrest, rfl⟩ := map_eq_ok.1 hread
    obtain ⟨d', hitem', hpad'⟩ := decode_padded h hitem hpad
    have hrun := ih hrest hpad'
    rw [decodeRun, dif_neg (by rwa [h.exhausted_eq hpad])]
    split <;> simp_all [Except.map]

end Shape

/-! ## Records of numbers -/

def Layout.IsNumeric : Layout → Prop
  | primitive prim => prim.skipsBlanks = true
  | struct shape | structs shape => shape.IsNumeric

/-- What is read whole without the blanks is read whole with them. -/
theorem Scan.whole_padded {α : Type} {read : Scan α} {chunk padded : Bytes} {a : α}
    (hread : ∀ {c₁ a}, read (.start chunk) = .ok a c₁ →
      ∃ d₁, read (.start padded) = .ok a d₁ ∧ Cursor.Padded c₁ d₁)
    (h : whole read true chunk = .ok a) : whole read true padded = .ok a := by
  obtain ⟨c₁, hchunk, hleft⟩ := whole_eq_ok h
  obtain ⟨d₁, hpadded, hpad⟩ := hread hchunk
  have hblank : c₁.onlyBlanks = true := by
    rcases Bool.or_eq_true_iff.1 hleft with hend | hblank
    · simp [Cursor.onlyBlanks, List.isEmpty_iff.1 hend]
    · simpa using hblank
  simp [whole, hpadded, hpad.onlyBlanks_iff.2 hblank]

theorem FlatNode.decode_padded {node : FlatNode} (hn : node.layout.IsNumeric)
    {chunk padded : Bytes} {value : FlatValue} (h : node.decode chunk = .ok value)
    (hpad : Cursor.Padded (.start chunk) (.start padded)) : node.decode padded = .ok value := by
  cases hlayout : node.layout with
  | primitive prim =>
    rw [hlayout] at hn
    simp only [decode, hlayout, show prim.skipsBlanks = true from hn] at h ⊢
    obtain ⟨s, hwhole, rfl⟩ := map_eq_ok.1 h
    refine map_eq_ok.2 ⟨s, Scan.whole_padded (fun hread => ?_) hwhole, rfl⟩
    obtain ⟨d₁, behind, hread', hb, hd₁⟩ := decodeScalar_padded hn hread hpad
    exact ⟨d₁, hread', .of_append hb hd₁⟩
  | struct shape =>
    rw [hlayout] at hn
    simp only [decode, hlayout, Shape.IsNumeric.endsInNumber_eq hn] at h ⊢
    obtain ⟨item, hwhole, rfl⟩ := map_eq_ok.1 h
    exact map_eq_ok.2 ⟨item, Scan.whole_padded (fun hread => Shape.decode_padded hn hread hpad)
      hwhole, rfl⟩
  | structs shape =>
    rw [hlayout] at hn
    simp only [decode, hlayout, Shape.IsNumeric.isRawByte_eq hn, Bool.false_eq_true, if_false]
      at h ⊢
    obtain ⟨items, hrun, rfl⟩ := map_eq_ok.1 h
    exact map_eq_ok.2 ⟨items, Shape.decodeRun_padded hn hrun hpad, rfl⟩

/-- Blanks around a record of numbers change nothing. -/
theorem decode_between_blanks {node : FlatNode} (hn : node.layout.IsNumeric)
    {chunk front behind : Bytes} {value : Value} (h : decode (.flat node) chunk = .ok value)
    (hf : ∀ b ∈ front, Bytes.isBlank b = true) (hb : ∀ b ∈ behind, Bytes.isBlank b = true) :
    decode (.flat node) (front ++ chunk ++ behind) = .ok value := by
  simp only [decode] at h ⊢
  obtain ⟨flat, hflat, rfl⟩ := map_eq_ok.1 h
  exact map_eq_ok.2 ⟨flat, node.decode_padded hn hflat (.around hf hb rfl), rfl⟩

def blankPairs : FlatNode :=
  ⟨⟨0, "s f\\n\\n*"⟩, .structs ⟨[], [⟨.i16, [0x20]⟩, ⟨.f32, [0x0a, 0x0a]⟩]⟩⟩

/-- A separator is missing at the end, and two of the blanks behind are taken for it. -/
theorem decode_blankPairs :
    parse "s f\\n\\n*" = .ok (.flat blankPairs) ∧
      decode (.flat blankPairs)
          ([0x09, 0x20] ++ Bytes.ofText "7 1.5\n\n8 2" ++ [0x0a, 0x0a, 0x0a]) =
        .ok (.flat (.structs
          [[⟨.i16, 7⟩, ⟨.f32, 0x3fc00000⟩], [⟨.i16, 8⟩, ⟨.f32, 0x40000000⟩]])) := by
  have hflat : blankPairs.decode (Bytes.ofText "7 1.5\n\n8 2") =
      .ok (.structs [[⟨.i16, 7⟩, ⟨.f32, 0x3fc00000⟩], [⟨.i16, 8⟩, ⟨.f32, 0x40000000⟩]]) := by
    decide +kernel
  have hnumeric : blankPairs.layout.IsNumeric := ⟨rfl, by decide, by decide +kernel⟩
  exact ⟨by decide +kernel, decode_between_blanks hnumeric (map_eq_ok.2 ⟨_, hflat, rfl⟩)
    (by decide +kernel) (by decide +kernel)⟩

end RecordStore
