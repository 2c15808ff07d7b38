import ConfigSweep.Patch.Script

/-!
# Patches

A patch says how a base tree is to change: it replaces the base by a literal or a computed value,
patches the items of a list, edits a list by a script, or patches the values under keys.
`Patch.toTree` writes the tree that is read as the patch.
-/

namespace ConfigSweep

/-- A patch of the values under keys: first its entries in their order, then the groups in the
order of their keys, last the upserts in their order, which have keys when they were written as a
mapping. Groups and upserts patch the node itself. -/
structure KeyedPatch (α : Type) where
  entries : List (String × α) := []
  groups : List (String × α) := []
  upserts : List (Option String × α) := []
  deriving Repr

inductive Patch where
  /-- A literal that replaces the base. -/
  | scalar (value : Tree)
  /-- A value computed from the one it replaces. -/
  | fromPrevious (call : Call)
  /-- A value computed from the root of the merge. -/
  | fromRoot (call : Call)
  /-- Patches for all items of a list. -/
  | list (items : List Patch)
  /-- Patches for items at some positions of a list. -/
  | sparse (slots : SparseList Patch)
  /-- A script that edits a list; its instructions without a value use the payload. -/
  | edits (script : Script) (payload : KeyedPatch Patch)
  | keyed (patch : KeyedPatch Patch)

namespace KeyedPatch

variable {α : Type}

def isEmpty (patch : KeyedPatch α) : Bool :=
  patch.entries.isEmpty && patch.groups.isEmpty && patch.upserts.isEmpty

/-- The label of an upsert in trails: its key, or its place among the upserts. -/
def upsertLabel (place : Nat) (key : Option String) : String :=
  Keyword.upsert ++ "-" ++ key.getD (toString place)

end KeyedPatch

namespace Patch

def kind : Patch → PatchKind
  | .scalar _ => .scalar
  | .fromPrevious _ => .evaluation
  | .fromRoot _ => .evaluation
  | .list _ => .list
  | .sparse _ => .indexKeyed
  | .edits _ _ => .listEdit
  | .keyed _ => .mapping

/-- The text in which a call is embedded. -/
def embedded (call : Call) : String :=
  Keyword.eval ++ "(" ++ call.expression ++ ")"

/-- Upserts that all have keys form a mapping, others a list. -/
def upsertsTree (upserts : List (Option String × Tree)) : Tree :=
  if upserts.all fun u => u.1.isSome then
    .mapping (Mapping.ofEntries (upserts.map fun u => (u.1.getD "", u.2)))
  else .list (upserts.map (·.2))

/-- Entries, groups and upserts in this order; no upserts are no entry. -/
def keyedEntries (entries groups : List (String × Tree)) (upserts : List (Option String × Tree)) :
    Mapping Tree :=
  let plain := Mapping.ofEntries (entries ++ groups)
  if upserts.isEmpty then plain else plain.insert Keyword.upsert (upsertsTree upserts)

mutual

/-- The tree that is read as the patch. -/
def toTree : Patch → Tree
  | .scalar value => value
  | .fromPrevious call => .str (embedded call)
  | .fromRoot call => call.directive
  | .list items => .list (itemTrees items)
  | .sparse slots => .mapping (slotTrees slots).toMapping
  | .edits script payload =>
    .mapping (Mapping.insert Keyword.operations script.toTree (keyedTrees payload))
  | .keyed patch => .mapping (keyedTrees patch)

def itemTrees : List Patch → List Tree
  | [] => []
  | p :: ps => p.toTree :: itemTrees ps

def slotTrees : SparseList Patch → SparseList Tree
  | ⟨slots⟩ => ⟨positionTrees slots⟩

def positionTrees : List (Nat × Patch) → List (Nat × Tree)
  | [] => []
  | (position, p) :: rest => (position, p.toTree) :: positionTrees rest

def keyedTrees : KeyedPatch Patch → Mapping Tree
  | ⟨entries, groups, upserts⟩ =>
    keyedEntries (namedTrees entries) (namedTrees groups) (upsertTrees upserts)

def namedTrees : List (String × Patch) → List (String × Tree)
  | [] => []
  | (key, p) :: rest => (key, p.toTree) :: namedTrees rest

def upsertTrees : List (Option String × Patch) → List (Option String × Tree)
  | [] => []
  | (key, p) :: rest => (key, p.toTree) :: upsertTrees rest

end

end Patch

end ConfigSweep
