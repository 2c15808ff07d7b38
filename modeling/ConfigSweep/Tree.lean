import ConfigSweep.Mapping
import ConfigSweep.Number.Binary64
import ConfigSweep.Number.Word

/-!
# Configuration trees

A tree is a leaf, a list or an ordered mapping. Integers and binary64 numbers are different kinds
of leaf. `Tree.Distinct` says that no mapping carries a key twice, as in every tree that was read
from a text.
-/

namespace ConfigSweep

inductive Tree where
  | null
  | bool (value : Bool)
  | int (value : Int)
  | float (value : Binary64)
  | str (text : String)
  | list (items : List Tree)
  | mapping (entries : List (String × Tree))
  deriving Repr, Inhabited

namespace Tree

/-- The coarse shape that decides how trees meet. -/
inductive Shape where
  | leaf
  | list
  | mapping
  deriving DecidableEq, Repr

def shape : Tree → Shape
  | .list _ => .list
  | .mapping _ => .mapping
  | _ => .leaf

def isLeaf (t : Tree) : Bool :=
  t.shape == .leaf

def entries? : Tree → Option (Mapping Tree)
  | .mapping entries => some entries
  | _ => none

def items? : Tree → Option (List Tree)
  | .list items => some items
  | _ => none

def text? : Tree → Option String
  | .str text => some text
  | _ => none

/-- The integer of a leaf that fits a signed word of 64 bits. -/
def index? : Tree → Option Int
  | .int n => if -Word.signedBound ≤ n ∧ n < Word.signedBound then some n else none
  | _ => none

/-- The value under `key`, if the tree is a mapping that has it. -/
def field? (key : String) (t : Tree) : Option Tree :=
  t.entries?.bind (Mapping.get? key)

mutual

/-- No mapping in the tree carries a key twice. -/
def Distinct : Tree → Prop
  | .list items => DistinctItems items
  | .mapping entries => (Mapping.keys entries).Nodup ∧ DistinctEntries entries
  | _ => True

def DistinctItems : List Tree → Prop
  | [] => True
  | t :: ts => t.Distinct ∧ DistinctItems ts

def DistinctEntries : List (String × Tree) → Prop
  | [] => True
  | (_, t) :: rest => t.Distinct ∧ DistinctEntries rest

end

end Tree

end ConfigSweep
