import RecordStore.Decimal.Binary

/-!
# Primitive codes

Each field of a record holds one primitive, named in a format by a letter.

## Main definitions

* `Prim` — the thirteen primitives.
* `Prim.code`, `Prim.ofCode?` — their letters.
* `Prim.width` — how many bytes the binary form takes.
* `Prim.kind` — how the text form is read.
-/

namespace RecordStore

/-- The primitives. Signed and unsigned come in pairs; bytes are raw in text where the small
integers are decimal. -/
inductive Prim
  | char
  | uchar
  | i8
  | u8
  | i16
  | u16
  | i32
  | u32
  | i64
  | u64
  | f32
  | f64
  | utf16
  deriving DecidableEq, Repr, Inhabited

namespace Prim

def all : List Prim :=
  [char, uchar, i8, u8, i16, u16, i32, u32, i64, u64, f32, f64, utf16]

def code : Prim → Char
  | char => 'c'
  | uchar => 'C'
  | i8 => 'b'
  | u8 => 'B'
  | i16 => 's'
  | u16 => 'S'
  | i32 => 'l'
  | u32 => 'L'
  | i64 => 'q'
  | u64 => 'Q'
  | f32 => 'f'
  | f64 => 'd'
  | utf16 => 'u'

def ofCode? (c : Char) : Option Prim := all.find? fun prim => prim.code = c

@[simp] theorem ofCode?_code (prim : Prim) : ofCode? prim.code = some prim := by
  cases prim <;> rfl

theorem code_of_ofCode? {c : Char} {prim : Prim} (h : ofCode? c = some prim) : prim.code = c := by
  simpa using List.find?_some h

def name : Prim → String
  | char => "Char"
  | uchar => "UChar"
  | i8 => "I8"
  | u8 => "U8"
  | i16 => "I16"
  | u16 => "U16"
  | i32 => "I32"
  | u32 => "U32"
  | i64 => "I64"
  | u64 => "U64"
  | f32 => "F32"
  | f64 => "F64"
  | utf16 => "Utf16"

def width : Prim → Nat
  | char | uchar | i8 | u8 => 1
  | i16 | u16 | utf16 => 2
  | i32 | u32 | f32 => 4
  | i64 | u64 | f64 => 8

theorem width_pos (prim : Prim) : 0 < prim.width := by cases prim <;> decide

def modulus : Prim → Nat
  | char | uchar | i8 | u8 => 256
  | i16 | u16 | utf16 => 65536
  | i32 | u32 | f32 => 4294967296
  | i64 | u64 | f64 => 18446744073709551616

theorem modulus_eq (prim : Prim) : prim.modulus = Nat.pow 2 (8 * prim.width) := by
  cases prim <;> decide

def isSigned : Prim → Bool
  | char | i8 | i16 | i32 | i64 => true
  | _ => false

inductive Kind
  /-- The byte itself. -/
  | raw
  /-- A decimal integer from `low` to `high`, of which the lowest bits are kept. -/
  | integer (low high : Int)
  /-- A decimal number rounded to a format, printed with `precision` significant digits. -/
  | real (format : Decimal.BinaryFormat) (precision : Nat)
  /-- A code unit as a character. -/
  | unit
  deriving DecidableEq, Repr

/-- The text form of each primitive. Single-byte integers are read with 32 bits. -/
def kind : Prim → Kind
  | char | uchar => .raw
  | i16 => .integer (-32768) 32767
  | u16 => .integer 0 65535
  | i8 | i32 => .integer (-2147483648) 2147483647
  | u8 | u32 => .integer 0 4294967295
  | i64 => .integer (-9223372036854775808) 9223372036854775807
  | u64 => .integer 0 18446744073709551615
  | f32 => .real .single 9
  | f64 => .real .double 17
  | utf16 => .unit

/-- Numbers skip the blanks before them; raw bytes and code units do not. -/
def skipsBlanks (prim : Prim) : Bool :=
  match prim.kind with
  | .integer .. | .real .. => true
  | .raw | .unit => false

end Prim

end RecordStore
