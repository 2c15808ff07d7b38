import ConfigSweep.Failure

/-!
# Reserved keys in plain data

Directives are used up by a merge. A reserved key that is left in the merged tree was written
where no directive is read.
-/

namespace ConfigSweep.Tree

mutual

/-- Refuses a tree for the first reserved key in it, keys of a mapping before what they hold. -/
def checkPlainAt : Tree → Trail → Outcome Unit
  | .list items, trail => checkPlainItems items 0 trail
  | .mapping entries, trail => checkPlainEntries entries trail
  | _, _ => .ok ()

def checkPlainItems : List Tree → Nat → Trail → Outcome Unit
  | [], _, _ => .ok ()
  | t :: ts, position, trail => do
    checkPlainAt t (trail.child (toString position))
    checkPlainItems ts (position + 1) trail

def checkPlainEntries : List (String × Tree) → Trail → Outcome Unit
  | [], _ => .ok ()
  | (key, t) :: rest, trail =>
    if Keyword.isReserved key then fail (.reservedKey key trail)
    else do
      checkPlainAt t (trail.child key)
      checkPlainEntries rest trail

end

/-- Refuses a tree that holds a reserved key. -/
def checkPlain (t : Tree) : Outcome Unit :=
  t.checkPlainAt .root

end ConfigSweep.Tree
