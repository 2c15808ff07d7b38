import ConfigSweep.Tree

/-!
# Equality of values

Two trees hold the same value when they agree up to the order of mapping keys and the sign of
zero. Numbers of different kinds never agree.
-/

namespace ConfigSweep.Tree

mutual

/-- The trees hold the same value. -/
def sameValue : Tree → Tree → Bool
  | .null, .null => true
  | .bool a, .bool b => a == b
  | .int a, .int b => a == b
  | .float a, .float b => a.sameValue b
  | .str a, .str b => a == b
  | .list a, .list b => sameItems a b
  | .mapping a, .mapping b => a.length == b.length && entriesWithin a b
  | _, _ => false

def sameItems : List Tree → List Tree → Bool
  | [], [] => true
  | a :: as, b :: bs => sameValue a b && sameItems as bs
  | _, _ => false

/-- Every entry has a partner of the same key and value in `other`. -/
def entriesWithin : List (String × Tree) → Mapping Tree → Bool
  | [], _ => true
  | (key, a) :: rest, other =>
    (match other.get? key with
      | some b => sameValue a b
      | none => false) && entriesWithin rest other

end

end ConfigSweep.Tree
