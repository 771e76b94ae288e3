import Mathlib.Data.List.Basic
import RecordStore.Format.TypeSequence

/-!
# Derivations of formats

The grammar of formats without escapes, as trees. The texts at the leaves carry the class of their
characters, so that every tree is a derivation:

    format  =  types
            |  V args (format) sep
            |  T args (types) sep                or H for T
            |  T args (types) sep (format) sep   or H for T
            |  P (format) sep (format)
    types   =  weak, then codes with weak behind each, then perhaps a star
    args    =  any number of arguments with a comma before each

Separator text `sep` and arguments are not empty; the weak separator text among codes can be.

## Main definitions

* `FlatDerivation`, `Derivation` — derivations of type sequences and of formats.
* `Derivation.text` — the format that is derived.
* `Derivation.schema` — the schema that a derivation stands for.

## Main statements

* `Derivation.schema_injective` — a derivation is known from its schema.
-/

namespace RecordStore

theorem Bytes.ofChars_injective : Function.Injective Bytes.ofChars := by
  intro a b h
  refine String.ofList_injective (String.toByteArray_inj.1 ?_)
  rw [String.toByteArray_ofList, String.toByteArray_ofList]
  exact congrArg List.toByteArray h

namespace Format

/-! ## Texts of one class of characters -/

@[ext]
structure WeakText where
  chars : List Char
  isWeak_of_mem : ∀ c ∈ chars, isWeak c = true
  deriving DecidableEq, Repr

def WeakText.empty : WeakText := ⟨[], List.forall_mem_nil _⟩

@[ext]
structure SepText where
  chars : List Char
  isPlain_of_mem : ∀ c ∈ chars, isPlain c = true
  ne_nil : chars ≠ []
  deriving DecidableEq, Repr

theorem SepText.notMem_chars (text : SepText) {c : Char} (hc : isPlain c = false) :
    c ∉ text.chars :=
  fun hm => by simp [text.isPlain_of_mem c hm] at hc

def SepText.single (c : Char) (h : isPlain c = true) : SepText :=
  ⟨[c], List.forall_mem_singleton.2 h, List.cons_ne_nil _ _⟩

def isArgChar (c : Char) : Bool := c != ',' && c != '(' && c != ')'

@[ext]
structure ArgText where
  chars : List Char
  isArgChar_of_mem : ∀ c ∈ chars, isArgChar c = true
  ne_nil : chars ≠ []
  deriving DecidableEq, Repr

def WeakText.bytes (text : WeakText) : Bytes := Bytes.ofChars text.chars

def SepText.bytes (text : SepText) : Bytes := Bytes.ofChars text.chars

def ArgText.string (arg : ArgText) : String := String.ofList arg.chars

theorem WeakText.bytes_injective : Function.Injective WeakText.bytes :=
  fun _ _ h => WeakText.ext (Bytes.ofChars_injective h)

theorem SepText.bytes_injective : Function.Injective SepText.bytes :=
  fun _ _ h => SepText.ext (Bytes.ofChars_injective h)

theorem ArgText.string_injective : Function.Injective ArgText.string :=
  fun _ _ h => ArgText.ext (String.ofList_injective h)

def argsText (args : List ArgText) : List Char := args.flatMap fun arg => ',' :: arg.chars

/-! ## Type sequences -/

/-- A code with the separator text behind it. -/
structure FieldText where
  prim : Prim
  sep : WeakText
  deriving DecidableEq, Repr

def FieldText.chars (field : FieldText) : List Char := field.prim.code :: field.sep.chars

def FieldText.field (field : FieldText) : Field := ⟨field.prim, field.sep.bytes⟩

theorem FieldText.field_injective : Function.Injective FieldText.field := by
  rintro ⟨prim, sep⟩ ⟨prim', sep'⟩ h
  obtain ⟨rfl, hsep⟩ := Field.mk.inj h
  exact congrArg (FieldText.mk prim) (WeakText.bytes_injective hsep)

structure FlatDerivation where
  lead : WeakText
  fields : List FieldText
  fields_ne_nil : fields ≠ []
  starred : Bool
  deriving DecidableEq, Repr

namespace FlatDerivation

def single (prim : Prim) (starred : Bool) : FlatDerivation :=
  ⟨.empty, [⟨prim, .empty⟩], List.cons_ne_nil _ _, starred⟩

def body (d : FlatDerivation) : List Char := d.fields.flatMap FieldText.chars

def text (d : FlatDerivation) : List Char :=
  d.lead.chars ++ d.body ++ if d.starred then ['*'] else []

def shape (d : FlatDerivation) : Shape := ⟨d.lead.bytes, d.fields.map FieldText.field⟩

/-- A star makes any number of structs. Else a lone code is a primitive, and anything more a
struct. -/
def layout (d : FlatDerivation) : Layout :=
  if d.starred then .structs d.shape
  else
    match d.shape with
    | ⟨[], [⟨prim, []⟩]⟩ => .primitive prim
    | shape => .struct shape

def node (d : FlatDerivation) (ordinal : Nat) : FlatNode :=
  ⟨⟨ordinal, String.ofList d.text⟩, d.layout⟩

theorem layout_injective : Function.Injective layout := by
  rintro ⟨lead, fields, hne, starred⟩ ⟨lead', fields', hne', starred'⟩ h
  obtain ⟨hshape, rfl⟩ : shape ⟨lead, fields, hne, starred⟩ =
      shape ⟨lead', fields', hne', starred'⟩ ∧ starred = starred' := by
    unfold layout at h
    grind
  obtain ⟨hlead, hfields⟩ := Shape.mk.inj hshape
  obtain rfl := WeakText.bytes_injective hlead
  obtain rfl := FieldText.field_injective.list_map hfields
  rfl

theorem node_injective (ordinal : Nat) : Function.Injective (node · ordinal) :=
  fun _ _ h => layout_injective (FlatNode.mk.inj h).2

end FlatDerivation

/-! ## Formats -/

/-- A derivation of a format. -/
inductive Derivation
  | flat (types : FlatDerivation)
  | sequence (args : List ArgText) (element : Derivation) (sep : SepText)
  | set (ordered : Bool) (args : List ArgText) (key : FlatDerivation) (sep : SepText)
  | map (ordered : Bool) (args : List ArgText) (key : FlatDerivation) (keySep : SepText)
    (value : Derivation) (sep : SepText)
  | pair (first : Derivation) (sep : SepText) (second : Derivation)
  deriving DecidableEq, Repr

def keyedLetter (ordered : Bool) : Char := if ordered then 'T' else 'H'

namespace Derivation

def text : Derivation → List Char
  | flat types => types.text
  | sequence args element sep => 'V' :: argsText args ++ '(' :: element.text ++ ')' :: sep.chars
  | set ordered args key sep =>
    keyedLetter ordered :: argsText args ++ '(' :: key.text ++ ')' :: sep.chars
  | map ordered args key keySep value sep =>
    keyedLetter ordered :: argsText args ++ '(' :: key.text ++ ')' :: keySep.chars ++
      '(' :: value.text ++ ')' :: sep.chars
  | pair first sep second =>
    'P' :: '(' :: first.text ++ ')' :: sep.chars ++ '(' :: second.text ++ [')']

def label (d : Derivation) (ordinal : Nat) : Label := ⟨ordinal, String.ofList d.text⟩

/-- The schema that a derivation stands for, with its nodes numbered in pre-order. -/
def schema : Derivation → (ordinal : Nat) → Schema
  | flat types, n => .flat (types.node n)
  | d@(sequence args element sep), n =>
    .sequence (d.label n) (element.schema (n + 1)) sep.bytes (args.map ArgText.string)
  | d@(set ordered args key sep), n =>
    .set (d.label n) ⟨key.node (n + 1), sep.bytes, ordered, args.map ArgText.string⟩
  | d@(map ordered args key keySep value sep), n =>
    .map (d.label n) ⟨key.node (n + 1), keySep.bytes, ordered, args.map ArgText.string⟩
      (value.schema (n + 2)) sep.bytes
  | d@(pair first sep second), n =>
    let left := first.schema (n + 1)
    .pair (d.label n) left (second.schema (n + 1 + left.size)) sep.bytes

/-- A derivation is known from its schema. -/
theorem schema_injective (ordinal : Nat) : Function.Injective (schema · ordinal) := by
  intro d e h
  induction d generalizing e ordinal with
  | flat types =>
    cases e with
    | flat types' => rw [FlatDerivation.node_injective ordinal (Schema.flat.inj h)]
    | _ => cases h
  | sequence args element sep ih =>
    cases e with
    | sequence args' element' sep' =>
      obtain ⟨-, helement, hsep, hargs⟩ := Schema.sequence.inj h
      rw [ih _ helement, SepText.bytes_injective hsep, ArgText.string_injective.list_map hargs]
    | _ => cases h
  | set ordered args key sep =>
    cases e with
    | set ordered' args' key' sep' =>
      obtain ⟨hkey, hsep, rfl, hargs⟩ := KeySpec.mk.inj (Schema.set.inj h).2
      rw [FlatDerivation.node_injective _ hkey, SepText.bytes_injective hsep,
        ArgText.string_injective.list_map hargs]
    | _ => cases h
  | map ordered args key keySep value sep ih =>
    cases e with
    | map ordered' args' key' keySep' value' sep' =>
      obtain ⟨-, hkeys, hvalue, hsep⟩ := Schema.map.inj h
      obtain ⟨hkey, hkeySep, rfl, hargs⟩ := KeySpec.mk.inj hkeys
      rw [FlatDerivation.node_injective _ hkey, SepText.bytes_injective hkeySep,
        ArgText.string_injective.list_map hargs, ih _ hvalue, SepText.bytes_injective hsep]
    | _ => cases h
  | pair first sep second ih₁ ih₂ =>
    cases e with
    | pair first' sep' second' =>
      obtain ⟨-, hfirst, hsecond, hsep⟩ := Schema.pair.inj h
      obtain rfl := ih₁ _ hfirst
      rw [ih₂ _ hsecond, SepText.bytes_injective hsep]
    | _ => cases h

end Derivation

end Format

end RecordStore
