import RecordStore.Schema.Basic

/-!
# Values

A value is what a record holds. Scalars carry their bits, so that every number, and every kind of
NaN, has one value.

## Main definitions

* `Scalar` — a primitive with its bits.
* `FlatValue`, `Value` — one form for each kind of node.
-/

namespace RecordStore

/-- A primitive value: its bits, to be read as the primitive says. -/
structure Scalar where
  prim : Prim
  bits : BitVec (8 * prim.width)
  deriving DecidableEq, Repr

namespace Scalar

def residue (modulus : Nat) : Int → Nat
  | .ofNat n => n % modulus
  | .negSucc n => modulus - 1 - n % modulus

theorem residue_eq {modulus : Nat} (h : 0 < modulus) (n : Int) :
    (residue modulus n : Int) = n % modulus := by
  cases n with
  | ofNat n => rfl
  | negSucc n =>
    have := Nat.mod_lt n h
    show ((modulus - 1 - n % modulus : Nat) : Int) = Int.subNatNat modulus (n % modulus + 1)
    rw [Int.subNatNat_of_le this]
    omega

theorem residue_lt {modulus : Nat} (h : 0 < modulus) (n : Int) : residue modulus n < modulus := by
  cases n with
  | ofNat n => exact Nat.mod_lt n h
  | negSucc n =>
    simp only [residue]
    omega

/-- The scalar of a number, of which the lowest bits are kept. -/
def ofInt (prim : Prim) (n : Int) : Scalar :=
  ⟨prim, BitVec.ofNatLT (residue prim.modulus n) (by
    rw [← Nat.pow_eq, ← prim.modulus_eq]
    exact residue_lt (by cases prim <;> decide) n)⟩

theorem ofInt_eq (prim : Prim) (n : Int) : ofInt prim n = ⟨prim, BitVec.ofInt _ n⟩ := by
  have h := residue_eq (n := n) (show 0 < prim.modulus by cases prim <;> decide)
  simp only [ofInt, mk.injEq, heq_eq_eq, true_and]
  apply BitVec.eq_of_toNat_eq
  rw [BitVec.toNat_ofNatLT, BitVec.toNat_ofInt, ← Nat.pow_eq, ← prim.modulus_eq, ← h,
    Int.toNat_natCast]

/-- The number that the bits give, in two's complement if the primitive is signed. -/
def toInt (s : Scalar) : Int :=
  let n := s.bits.toNat
  if s.prim.isSigned && s.prim.modulus ≤ 2 * n then (n : Int) - s.prim.modulus else n

theorem toInt_eq (s : Scalar) :
    s.toInt = if s.prim.isSigned then s.bits.toInt else s.bits.toNat := by
  have h := s.prim.modulus_eq
  rw [Nat.pow_eq] at h
  simp only [toInt, BitVec.toInt_eq_toNat_cond, ← h]
  cases s.prim.isSigned with
  | false => simp
  | true =>
    simp only [Bool.true_and, decide_eq_true_eq, if_true]
    omega

@[simp] theorem prim_ofInt (prim : Prim) (n : Int) : (ofInt prim n).prim = prim := rfl

end Scalar

inductive FlatValue
  | scalar (s : Scalar)
  | struct (fields : List Scalar)
  | structs (items : List (List Scalar))
  /-- Raw bytes in a row. -/
  | bytes (data : Bytes)
  deriving DecidableEq, Repr

/-- The value of any node. An entry of a keyed value without a second part is a member of a
set. -/
inductive Value
  | flat (value : FlatValue)
  | seq (items : List Value)
  | keyed (entries : List (Value × Option Value))
  | pair (first second : Value)
  deriving Repr

end RecordStore
