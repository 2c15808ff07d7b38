import ConfigSweep.Tree

/-!
# Paths into trees

A step goes from a mapping to the value under a key or from a list to the item at a position.
-/

namespace ConfigSweep

inductive Step where
  | key (name : String)
  | index (position : Nat)
  deriving DecidableEq, Repr

abbrev Path := List Step

namespace Tree

/-- The subtree one step below. -/
def child? : Tree → Step → Option Tree
  | .mapping entries, .key name => Mapping.get? name entries
  | .list items, .index position => items[position]?
  | _, _ => none

/-- The subtree that a path leads to. -/
def get? : Path → Tree → Option Tree
  | [], t => some t
  | step :: rest, t => (t.child? step).bind (get? rest)

/-- Puts `child` where `step` leads; nothing changes when the step leads nowhere. -/
def setChild (t : Tree) (step : Step) (child : Tree) : Tree :=
  match t, step with
  | .mapping entries, .key name =>
    if Mapping.has name entries then .mapping (Mapping.insert name child entries) else t
  | .list items, .index position => .list (items.set position child)
  | t, _ => t

/-- Puts `value` where the path leads; none when it leads nowhere. -/
def replace? (value : Tree) : Path → Tree → Option Tree
  | [], _ => some value
  | step :: rest, t => do
    let child ← t.child? step
    let updated ← replace? value rest child
    return t.setChild step updated

end Tree

end ConfigSweep
