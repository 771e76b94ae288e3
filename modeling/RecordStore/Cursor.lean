import RecordStore.Bytes

/-!
# Cursors

A cursor stands at a position in a byte string. Reading moves it towards the end.

## Main definitions

* `Cursor` — the position, and what is left.
* `Cursor.advance`, `Cursor.skipBlanks` — moving it.
-/

namespace RecordStore

structure Cursor where
  position : Nat
  /-- The bytes from the position on. -/
  rest : Bytes
  deriving DecidableEq, Repr

namespace Cursor

def start (bytes : Bytes) : Cursor := ⟨0, bytes⟩

def atEnd (c : Cursor) : Bool := c.rest.isEmpty

def onlyBlanks (c : Cursor) : Bool := c.rest.all Bytes.isBlank

/-- Moves by `n` bytes, or to the end. -/
def advance (c : Cursor) (n : Nat) : Cursor :=
  ⟨c.position + (c.rest.take n).length, c.rest.drop n⟩

def skipBlanks (c : Cursor) : Cursor :=
  ⟨c.position + (c.rest.takeWhile Bytes.isBlank).length, c.rest.dropWhile Bytes.isBlank⟩

def finish (c : Cursor) : Cursor := ⟨c.position + c.rest.length, []⟩

theorem length_rest_advance_le (c : Cursor) (n : Nat) :
    (c.advance n).rest.length ≤ c.rest.length := by
  simp [advance]

theorem length_rest_advance_lt {c : Cursor} {n : Nat} (hn : 0 < n) (hc : c.rest ≠ []) :
    (c.advance n).rest.length < c.rest.length := by
  have := List.length_pos_iff.2 hc
  simp only [advance, List.length_drop]
  omega

theorem length_rest_skipBlanks_le (c : Cursor) : c.skipBlanks.rest.length ≤ c.rest.length :=
  (List.dropWhile_suffix _).length_le

end Cursor

end RecordStore
