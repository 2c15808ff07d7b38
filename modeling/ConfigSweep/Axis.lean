import ConfigSweep.Failure

/-!
# Axes of a parameters tree

A mapping that carries the sweep marker is an axis. `Tree.splitAxes` takes the axes out of a tree
and leaves the remainder, in which lists are mappings keyed by position tokens, so that positions
survive.
-/

namespace ConfigSweep

/-- An axis: where it stands, and its declaration without the marker. -/
structure Axis where
  key : AxisKey
  declaration : Mapping Tree
  deriving Repr

/-- The axes of a tree in document order, and all else. -/
structure AxisSplit where
  axes : List Axis
  remainder : Tree
  deriving Repr

def AxisSplit.hasAxes (split : AxisSplit) : Bool :=
  !split.axes.isEmpty

namespace Axis

/-- The axis as seen from one step higher up. -/
def under (parent : Step) (axis : Axis) : Axis :=
  { axis with key := axis.key.under parent }

end Axis

namespace Tree

/-- The declaration of the axis that a tree is, if it is one. -/
def axisDeclaration? : Tree → Option (Mapping Tree)
  | .mapping entries =>
    if Mapping.has Keyword.sweep entries then some (Mapping.remove Keyword.sweep entries) else none
  | _ => none

/-- Refuses a key that contains the separator of axis keys. -/
def checkSplittable (key : String) (trail : Trail) : Outcome Unit :=
  if Text.contains AxisKey.separator.toList key.toList then
    fail (.reservedToken key trail AxisKey.separator)
  else .ok ()

/-- The axes below a container and the entries of its remainder. -/
structure Cut where
  axes : List Axis := []
  entries : List (String × Tree) := []

namespace Cut

def append (a b : Cut) : Cut :=
  ⟨a.axes ++ b.axes, a.entries ++ b.entries⟩

def close (c : Cut) : AxisSplit :=
  ⟨c.axes, .mapping c.entries⟩

/-- What a child adds: an axis, or the axes below it and its remainder. -/
@[macro_inline]
def child (step : Step) (t : Tree) (below : Outcome AxisSplit) : Outcome Cut :=
  match t.axisDeclaration? with
  | some declaration => .ok ⟨[⟨.ofSteps [step], declaration⟩], []⟩
  | none => below.map fun split =>
      ⟨split.axes.map (Axis.under step), [(step.token, split.remainder)]⟩

end Cut

mutual

/-- Splits a node that is no axis itself. -/
def splitNode : Tree → Trail → Outcome AxisSplit
  | .list items, trail => Cut.close <$> splitItems items 0 trail
  | .mapping entries, trail => Cut.close <$> splitEntries entries trail
  | leaf, _ => .ok ⟨[], leaf⟩

def splitItems : List Tree → Nat → Trail → Outcome Cut
  | [], _, _ => .ok {}
  | t :: ts, position, trail => do
    let step := Step.index position
    let first ← Cut.child step t (splitNode t (trail.child step.label))
    return first.append (← splitItems ts (position + 1) trail)

def splitEntries : List (String × Tree) → Trail → Outcome Cut
  | [], _ => .ok {}
  | (key, t) :: rest, trail => do
    checkSplittable key trail
    let first ← Cut.child (.key key) t (splitNode t (trail.child key))
    return first.append (← splitEntries rest trail)

end

/-- Takes the axes out of a parameters tree, which must not be an axis itself. -/
def splitAxes (t : Tree) : Outcome AxisSplit :=
  match t.axisDeclaration? with
  | some _ => fail (.malformedAxis Trail.root.dotted
      "the parameters tree itself cannot be a sweep axis")
  | none => t.splitNode .root

end Tree

end ConfigSweep
