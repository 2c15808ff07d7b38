/-!
# Trails

A trail lists the labels from the root of a walk to the place it has reached, as shown in
messages.
-/

namespace ConfigSweep

structure Trail where
  labels : List String
  deriving DecidableEq, Repr

namespace Trail

def root : Trail := ⟨[]⟩

def child (trail : Trail) (label : String) : Trail :=
  ⟨trail.labels ++ [label]⟩

def isRoot (trail : Trail) : Bool :=
  trail.labels.isEmpty

/-- The labels joined by dots; the root has a text of its own. -/
def dotted (trail : Trail) : String :=
  if trail.isRoot then "<root>" else ".".intercalate trail.labels

end Trail

end ConfigSweep
