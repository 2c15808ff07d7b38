import ConfigSweep.Failure
import ConfigSweep.SparseList
import ConfigSweep.Tree.Path

/-!
# The focus of a merge

A merge changes one tree from its root. A focus says where a node is, by the path that leads to
it, and how it is reported, by a trail. Groups and upserts come back to a node under a longer
trail.
-/

namespace ConfigSweep

structure Focus where
  path : Path
  trail : Trail
  deriving DecidableEq, Repr

namespace Focus

def root : Focus := ⟨[], .root⟩

def atKey (focus : Focus) (name : String) : Focus :=
  ⟨focus.path ++ [.key name], focus.trail.child name⟩

def atIndex (focus : Focus) (position : Nat) : Focus :=
  ⟨focus.path ++ [.index position], focus.trail.child (toString position)⟩

/-- The same node under a further label. -/
def under (focus : Focus) (label : String) : Focus :=
  ⟨focus.path, focus.trail.child label⟩

/-- The node in focus. -/
def read (focus : Focus) (root : Tree) : Outcome Tree :=
  match root.get? focus.path with
  | some t => .ok t
  | none => fail (.detachedNode focus.trail)

/-- Puts a node into focus, in place of the one there. -/
def write (focus : Focus) (value root : Tree) : Outcome Tree :=
  match Tree.replace? value focus.path root with
  | some root => .ok root
  | none => fail (.detachedNode focus.trail)

/-- The node in focus, which becomes a list if it is one in disguise, and the root then. -/
def revealed (focus : Focus) (root : Tree) : Outcome (Tree × Tree) := do
  let t ← focus.read root
  let t ← Stopped.outcome t.reveal
  return (t, ← focus.write t root)

/-- Turns the node in focus into a list if it is one in disguise. -/
def reveal (focus : Focus) (root : Tree) : Outcome Tree := do
  return (← focus.revealed root).2

end Focus

end ConfigSweep
