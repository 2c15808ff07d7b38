import ConfigSweep.Failure

/-!
# Filling a tree up with defaults

What a base lacks is added, leaves that it has win. Mappings are filled key by key, lists position
by position. A failure leaves what was added before it.
-/

namespace ConfigSweep.Tree

/-- Why a tree cannot be added to a base. -/
def refuseDefault (base : Tree) (trail : Trail) (problem : String) : Except (Stopped Tree) Tree :=
  .error ⟨⟨.remainderMismatch trail problem, none⟩, base⟩

mutual

/-- Adds a tree to the base that the trail leads to. -/
def addAt : Tree → Tree → Trail → Except (Stopped Tree) Tree
  | .mapping added, .mapping base, trail => Stopped.lift .mapping (addEntries added base trail)
  | .list added, .list base, trail =>
    if base.length < added.length then
      refuseDefault (.list base) trail ("cannot add a list of length " ++ toString added.length
        ++ " to a list of length " ++ toString base.length)
    else Stopped.lift .list (addItems added base 0 trail)
  | added, .mapping base, trail =>
    refuseDefault (.mapping base) trail ("cannot add " ++ added.compact ++ " to a mapping")
  | added, .list base, trail =>
    refuseDefault (.list base) trail ("cannot add " ++ added.compact ++ " to a list")
  | _, leaf, _ => .ok leaf

def addEntries :
    List (String × Tree) → Mapping Tree → Trail → Except (Stopped (Mapping Tree)) (Mapping Tree)
  | [], base, _ => .ok base
  | (key, added) :: rest, base, trail =>
    match base.get? key with
    | none => addEntries rest (base.insert key added) trail
    | some existing =>
      match addAt added existing (trail.child key) with
      | .error stopped => .error ⟨stopped.failure, base.insert key stopped.left⟩
      | .ok merged => addEntries rest (base.insert key merged) trail

def addItems :
    List Tree → List Tree → Nat → Trail → Except (Stopped (List Tree)) (List Tree)
  | added :: moreAdded, existing :: more, position, trail =>
    match addAt added existing (trail.child (toString position)) with
    | .error stopped => .error ⟨stopped.failure, stopped.left :: more⟩
    | .ok merged => Stopped.lift (merged :: ·) (addItems moreAdded more (position + 1) trail)
  | _, base, _, _ => .ok base

end

/-- Fills the gaps of `base` with the content of `added`. -/
def withDefaults (base added : Tree) : Except (Stopped Tree) Tree :=
  addAt added base .root

end ConfigSweep.Tree
