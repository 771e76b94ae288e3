import RecordStore.Cursor
import RecordStore.Text.Quoted
import RecordStore.Text.Utf8

/-!
# Faults of records

## Main definitions

* `DecodeError` — why a record does not fit its schema.
* `Scan` — reading at a cursor, which keeps its position when reading fails.
-/

namespace RecordStore

inductive DecodeError
  | unexpectedEnd
  /-- No number of the primitive with this letter. -/
  | badNumber (code : Char) (token : Bytes)
  | unmetSeparator (expected : Bytes)
  | missingSeparator (expected : Bytes)
  | trailingInput (count : Nat)
  /-- The value has not the form of the node with this ordinal. -/
  | shapeMismatch (ordinal : Nat)
  deriving DecidableEq, Repr

def DecodeError.message : DecodeError → String
  | unexpectedEnd => "unexpected end of input"
  | badNumber code token =>
    let token := Quoted.quote (Utf8.readLossy token)
    s!"invalid '{code}' value {token}"
  | unmetSeparator expected => s!"expected separator {Quoted.quoteBytes expected}"
  | missingSeparator expected => s!"missing pair separator {Quoted.quoteBytes expected}"
  | trailingInput count => s!"{count} trailing byte(s) after value"
  | shapeMismatch ordinal => s!"value does not match schema node {ordinal}"

/-- Reading at a cursor. The cursor a failure leaves behind is part of the outcome. -/
abbrev Scan := EStateM DecodeError Cursor

namespace Scan

variable {α β : Type}

theorem pure_apply (a : α) (c : Cursor) : (pure a : Scan α) c = .ok a c := rfl

theorem bind_apply (scan : Scan α) (next : α → Scan β) (c : Cursor) :
    (scan >>= next) c =
      match scan c with
      | .ok a c => next a c
      | .error fault c => .error fault c := by
  show EStateM.bind scan next c = _
  unfold EStateM.bind
  cases scan c <;> rfl

theorem map_apply (f : α → β) (scan : Scan α) (c : Cursor) :
    (f <$> scan) c =
      match scan c with
      | .ok a c => .ok (f a) c
      | .error fault c => .error fault c := by
  show EStateM.map f scan c = _
  unfold EStateM.map
  cases scan c <;> rfl

theorem get_apply (c : Cursor) : (get : Scan Cursor) c = .ok c c := rfl

theorem modify_apply (move : Cursor → Cursor) (c : Cursor) :
    (modify move : Scan Unit) c = .ok () (move c) := rfl

theorem throw_apply (fault : DecodeError) (c : Cursor) :
    (throw fault : Scan α) c = .error fault c := rfl

end Scan

end RecordStore
