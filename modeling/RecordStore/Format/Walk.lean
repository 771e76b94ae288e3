import RecordStore.Format.Collision

/-!
# Walking down a schema

Colliding separators can be found in one walk through a schema that has one stack of the separators
around the node where it is. Those of a container are put on the stack before its children are
checked, and it is cut back behind them.

## Main definitions

* `Walk` — a check that has such a stack.
* `Schema.walk` — the check of a schema.
-/

namespace RecordStore

/-- A check with a stack of enclosing separators, the innermost at its end. -/
abbrev Walk := StateT (List Bytes) (Except FormatError)

namespace Walk

def visit (s : Schema) : Walk Unit := do
  match s.ownCollision? (← get) with
  | some fault => throw fault
  | none => return

def inside (s : Schema) (children : Walk Unit) : Walk Unit := do
  let depth := (← get).length
  modify (· ++ s.ownSeparators)
  children
  modify (·.take depth)

end Walk

/-- Checks a schema in pre-order. -/
def Schema.walk : Schema → Walk Unit
  | s@(flat _) => Walk.visit s
  | s@(sequence _ element _ _) => do
    Walk.visit s
    Walk.inside s element.walk
  | s@(set _ keys) => do
    Walk.visit s
    Walk.inside s (Walk.visit (flat keys.node))
  | s@(map _ keys value _) => do
    Walk.visit s
    Walk.inside s do
      Walk.visit (flat keys.node)
      value.walk
  | s@(pair _ first second _) => do
    Walk.visit s
    Walk.inside s do
      first.walk
      second.walk

end RecordStore
