import ConfigSweep.Merge.EditRun
import ConfigSweep.Merge.Residue
import ConfigSweep.Patch.Classify

/-!
# Merging patches into trees

A patch is merged into the node in focus of a tree, and the whole tree is handed on, so that
every call sees all changes made before it. A node that ends as a list in disguise becomes a list.
A failure is located at the innermost node whose merge was under way.
-/

namespace ConfigSweep

namespace Merge

/-- Ends the merge of `patch` into the node in focus. -/
@[macro_inline]
def settle (focus : Focus) (patch : Patch) (outcome : Outcome Tree) : Outcome Tree :=
  Outcome.located focus.trail patch.toTree (outcome.bind focus.reveal)

/-- Makes the node a mapping: over a leaf an empty one. A list can only stay as it is, for a patch
without entries. -/
def openMapping (focus : Focus) (noEntries : Bool) (root : Tree) : Outcome Tree := do
  let (t, root) ← focus.revealed root
  match t.shape with
  | .mapping => return root
  | .leaf => focus.write (.mapping []) root
  | .list => if noEntries then return root else fail (.shapeMismatch .list .mapping)

/-- Makes sure that the mapping has a value under `key`. -/
def ensureKey (focus : Focus) (key : String) (root : Tree) : Outcome Tree := do
  match ← focus.read root with
  | .mapping entries =>
    if Mapping.has key entries then return root
    else focus.write (.mapping (Mapping.insert key .null entries)) root
  | _ => fail (.shapeMismatch .leaf .mapping)

/-- Makes the node a list of `length` items: over a leaf, nulls. -/
def openList (focus : Focus) (length : Nat) (root : Tree) : Outcome Tree := do
  let (t, root) ← focus.revealed root
  match t with
  | .list items =>
    if items.length = length then return root
    else fail (.lengthMismatch items.length length)
  | .mapping _ => fail (.shapeMismatch .mapping .list)
  | _ => focus.write (.list (List.replicate length .null)) root

/-- Makes the node a list for patches at the slots: over a leaf, nulls where the slots leave no
gap. Returns its length too. -/
def openSlots (focus : Focus) (slots : SparseList Patch) (root : Tree) : Outcome (Nat × Tree) := do
  let (t, root) ← focus.revealed root
  match t with
  | .list items => return (items.length, root)
  | .mapping _ => fail (.shapeMismatch .mapping .indexKeyed)
  | _ => do
    slots.checkGapless
    return (slots.size, ← focus.write (.list (List.replicate slots.size .null)) root)

/-- The list that a script edits must be there. -/
def openScript (focus : Focus) (root : Tree) : Outcome Tree := do
  let (t, root) ← focus.revealed root
  match t.shape with
  | .list => return root
  | shape => fail (.shapeMismatch shape .listEdit)

variable (evaluator : Evaluator)

mutual

/-- Merges a patch into the node in focus and returns the changed root. -/
def node : Patch → Focus → Tree → Outcome Tree
  | .scalar value, focus, root => settle focus (.scalar value) (focus.write value root)
  | .fromRoot call, focus, root => settle focus (.fromRoot call) do
      let value ← evaluator call root
      focus.write value root
  | .fromPrevious call, focus, root => settle focus (.fromPrevious call) do
      let previous ← focus.read root
      let value ← evaluator call previous
      focus.write value root
  | .list patches, focus, root => settle focus (.list patches) do
      let root ← openList focus patches.length root
      items patches 0 focus root
  | .sparse slots, focus, root => settle focus (.sparse slots) do
      let (length, root) ← openSlots focus slots root
      sparse slots length focus root
  | .edits script payload, focus, root => settle focus (.edits script payload) do
      let root ← openScript focus root
      script.run evaluator (fun focus root => keyed payload focus root) focus root
  | .keyed patch, focus, root => settle focus (.keyed patch) (keyed patch focus root)

/-- Merges patches into all items of a list, from a position on. -/
def items : List Patch → Nat → Focus → Tree → Outcome Tree
  | [], _, _, root => .ok root
  | p :: ps, position, focus, root => do
    let root ← node p (focus.atIndex position) root
    items ps (position + 1) focus root

def sparse : SparseList Patch → Nat → Focus → Tree → Outcome Tree
  | ⟨patches⟩, length, focus, root => slots patches length focus root

/-- Merges patches into items of a list of `length` items. -/
def slots : List (Nat × Patch) → Nat → Focus → Tree → Outcome Tree
  | [], _, _, root => .ok root
  | (position, p) :: rest, length, focus, root =>
    if length ≤ position then fail (SparseList.gap position length)
    else do
      let root ← node p (focus.atIndex position) root
      slots rest length focus root

/-- Merges a keyed patch: its entries, then its groups, then its upserts. -/
def keyed : KeyedPatch Patch → Focus → Tree → Outcome Tree
  | ⟨entries, groups, upserts⟩, focus, root => do
    let root ← openMapping focus entries.isEmpty root
    let root ← values entries focus root
    let root ← revisits groups focus root
    ordered upserts 0 focus root

/-- Merges patches into the values under keys; an absent value is null. -/
def values : List (String × Patch) → Focus → Tree → Outcome Tree
  | [], _, root => .ok root
  | (key, p) :: rest, focus, root => do
    let root ← ensureKey focus key root
    let root ← node p (focus.atKey key) root
    values rest focus root

/-- Merges patches into the node itself, labelled by their keys. -/
def revisits : List (String × Patch) → Focus → Tree → Outcome Tree
  | [], _, root => .ok root
  | (key, p) :: rest, focus, root => do
    let root ← node p (focus.under key) root
    revisits rest focus root

/-- Merges upserts into the node itself. -/
def ordered : List (Option String × Patch) → Nat → Focus → Tree → Outcome Tree
  | [], _, _, root => .ok root
  | (key, p) :: rest, place, focus, root => do
    let root ← node p (focus.under (KeyedPatch.upsertLabel place key)) root
    ordered rest (place + 1) focus root

end

end Merge

namespace Patch

/-- Merges a patch into a base; the merged tree must be free of reserved keys. -/
def mergeInto (evaluator : Evaluator) (base : Tree) (patch : Patch) : Outcome Tree := do
  let root ← Merge.node evaluator patch .root base
  Outcome.located .root patch.toTree root.checkPlain
  return root

end Patch

/-- Reads a tree as a patch and merges it into a base. -/
def Tree.merge (evaluator : Evaluator) (base patch : Tree) : Outcome Tree := do
  let patch ← Patch.ofTree patch
  patch.mergeInto evaluator base

end ConfigSweep
