import RecordStore.Format.Error
import RecordStore.Schema.Basic

/-!
# Colliding separators

A separator inside a container must not begin like a separator of the container, or else the
records of the container could not be told from those inside it.

## Main definitions

* `collides` — whether one separator begins the other.
* `Schema.collision?` — the first collision of a schema in pre-order.
-/

namespace RecordStore

def collides (a b : Bytes) : Bool :=
  !a.isEmpty && !b.isEmpty && (b.isPrefixOf a || a.isPrefixOf b)

namespace Schema

def ownCollision? (s : Schema) (enclosing : List Bytes) : Option FormatError :=
  s.ownSeparators.findSome? fun inner =>
    (enclosing.find? (collides inner)).map fun outer => .separatorCollision s.source inner outer

theorem ownCollision?_eq_none_iff {s : Schema} {enclosing : List Bytes} :
    s.ownCollision? enclosing = none ↔
      ∀ inner ∈ s.ownSeparators, ∀ outer ∈ enclosing, collides inner outer = false := by
  simp [ownCollision?]

/-- The first collision in pre-order below the given enclosing separators, outermost first. -/
def collisionIn? (enclosing : List Bytes) : Schema → Option FormatError
  | s@(flat _) => s.ownCollision? enclosing
  | s@(sequence _ element _ _) =>
    (s.ownCollision? enclosing).or (element.collisionIn? (enclosing ++ s.ownSeparators))
  | s@(set _ keys) =>
    (s.ownCollision? enclosing).or
      ((flat keys.node).ownCollision? (enclosing ++ s.ownSeparators))
  | s@(map _ keys value _) =>
    (s.ownCollision? enclosing).or <|
      ((flat keys.node).ownCollision? (enclosing ++ s.ownSeparators)).or <|
        value.collisionIn? (enclosing ++ s.ownSeparators)
  | s@(pair _ first second _) =>
    (s.ownCollision? enclosing).or <|
      (first.collisionIn? (enclosing ++ s.ownSeparators)).or <|
        second.collisionIn? (enclosing ++ s.ownSeparators)

def collision? (s : Schema) : Option FormatError := s.collisionIn? []

end Schema

end RecordStore
