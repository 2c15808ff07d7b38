import ConfigSweep.Merge.Focus
import ConfigSweep.Patch

/-!
# Running edit scripts

Instructions apply one after the other to the list as the earlier ones left it. Negative positions
count from the end, and -1 inserts behind the last item.
-/

namespace ConfigSweep

namespace Position

/-- The position meant in a list of `length` items, at most `greatest`. -/
def counted (requested : Int) (length greatest : Nat) : Outcome Nat :=
  let position? :=
    if 0 ≤ requested then some requested.toNat
    else if requested.natAbs ≤ length then some (length - requested.natAbs)
    else none
  match position?.filter (· ≤ greatest) with
  | some position => .ok position
  | none => fail (.indexOutOfRange requested length)

/-- Where an item is inserted: before an item, or behind the last one. -/
def forInsertion (requested : Int) (length : Nat) : Outcome Nat :=
  if requested = -1 then .ok length else counted requested length length

/-- The position of an item that is there. -/
def ofItem (requested : Int) : Nat → Outcome Nat
  | 0 => fail (.indexOutOfRange requested 0)
  | last + 1 => counted requested (last + 1) last

end Position

/-- The value of an instruction; a call is computed from the root. -/
def EditValue.compute (evaluator : Evaluator) (root : Tree) : EditValue → Outcome Tree
  | .literal value => .ok value
  | .computed call => evaluator call root

/-- Merges the payload of a script into the node in focus. -/
abbrev PayloadMerge := Focus → Tree → Outcome Tree

namespace Edit

/-- Applies an instruction to the list in focus, whose items are given. -/
def apply (evaluator : Evaluator) (mergePayload : PayloadMerge) (focus : Focus)
    (items : List Tree) (root : Tree) : Edit → Outcome Tree
  | .insert requested value => do
    let position ← Position.forInsertion requested items.length
    match value with
    | some value => do
      let value ← value.compute evaluator root
      focus.write (.list (items.insertIdx position value)) root
    | none => do
      let root ← focus.write (.list (items.insertIdx position .null)) root
      mergePayload (focus.atIndex position) root
  | .overwrite requested value => do
    let position ← Position.ofItem requested items.length
    match value with
    | some value => do
      let value ← value.compute evaluator root
      focus.write (.list (items.set position value)) root
    | none => mergePayload (focus.atIndex position) root
  | .remove requested => do
    let position ← Position.ofItem requested items.length
    focus.write (.list (items.eraseIdx position)) root

end Edit

/-- The items of the list in focus. -/
def Focus.items (focus : Focus) (root : Tree) : Outcome (List Tree) := do
  match ← focus.read root with
  | .list items => return items
  | _ => fail (.shapeMismatch .leaf .listEdit)

/-- Applies the instructions of a script in their order. -/
def Script.run (evaluator : Evaluator) (mergePayload : PayloadMerge) (focus : Focus) :
    Script → Tree → Outcome Tree
  | [], root => .ok root
  | edit :: rest, root => do
    let items ← focus.items root
    let root ← edit.apply evaluator mergePayload focus items root
    Script.run evaluator mergePayload focus rest root

end ConfigSweep
