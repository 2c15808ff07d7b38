import ConfigSweep.Patch

/-!
# Reading trees as patches

`Patch.ofTree` decides for every node of a tree what it asks for, and refuses malformed directives
before anything is merged. A failure is located at the node where it arose.
-/

namespace ConfigSweep.Patch

/-- What one entry of a mapping is to the patch that the mapping stands for. -/
inductive Part where
  | plain (key : String) (patch : Patch)
  | group (key : String) (patch : Patch)
  | upserts (patches : List (Option String × Patch))

namespace Part

def plain? : Part → Option (String × Patch)
  | .plain key patch => some (key, patch)
  | _ => none

def group? : Part → Option (String × Patch)
  | .group key patch => some (key, patch)
  | _ => none

def upserts? : Part → Option (List (Option String × Patch))
  | .upserts patches => some patches
  | _ => none

end Part

/-- The keyed patch made of parts: groups are sorted by key, all else keeps its order. -/
def ofParts (parts : List Part) : KeyedPatch Patch where
  entries := parts.filterMap Part.plain?
  groups := (parts.filterMap Part.group?).mergeSort fun a b => a.1 ≤ b.1
  upserts := ((parts.filterMap Part.upserts?).getLast?).getD []

/-- All parts, or the first failure among them. -/
def sequenceParts : List (String × Outcome Part) → Outcome (List Part)
  | [] => .ok []
  | (_, part) :: rest => do
    let part ← part
    return part :: (← sequenceParts rest)

/-- The value of a text: a call when one is embedded in it. -/
def ofText (text : String) : Patch :=
  match embeddedCall? text with
  | some name => .fromPrevious (.named (Text.trimmed name))
  | none => .scalar (.str text)

/-- Upserts that are keyed by position tokens are taken in the order of the positions. -/
def orderUpserts (entries : Mapping Patch) : List (Option String × Patch) :=
  let ordered :=
    if Mapping.isPositional entries then
      entries.mergeSort fun a b =>
        (Position.ofToken? a.1).getD 0 ≤ (Position.ofToken? b.1).getD 0
    else entries
  ordered.map fun e => (some e.1, e.2)

/-- How a mapping is to be read, by its keys alone. -/
inductive Reading where
  | call (payload : Tree)
  | crowdedCall
  | axis
  | script (operations : Tree)
  | sparse
  | keyed

def reading (entries : Mapping Tree) : Reading :=
  match entries.get? Keyword.eval with
  | some payload => if entries.length ≠ 1 then .crowdedCall else .call payload
  | none =>
    if entries.has Keyword.sweep then .axis
    else
      match entries.get? Keyword.operations with
      | some operations => .script operations
      | none => if Mapping.isPositional entries then .sparse else .keyed

mutual

/-- Reads the node that the trail leads to. -/
def ofTreeAt : Tree → Trail → Outcome Patch
  | .str text, trail => Outcome.located trail (.str text) (.ok (ofText text))
  | .list items, trail =>
    Outcome.located trail (.list items) (Patch.list <$> ofItems items 0 trail)
  | .mapping entries, trail =>
    Outcome.located trail (.mapping entries) <|
      match reading entries with
      | .crowdedCall =>
        fail (.malformedDirective Keyword.eval "must be the only key in its mapping")
      | .call payload => Patch.fromRoot <$> Call.ofTree payload
      | .axis => fail (.malformedAxis trail.dotted
          "sweep axes must be resolved to a value before they are merged")
      | .script operations => do
        let script ← Script.ofTree operations
        let parts ← sequenceParts (Mapping.remove Keyword.operations (partsOf entries trail))
        return .edits script (ofParts parts)
      | .sparse => Patch.sparse <$> ofSlots entries trail .empty
      | .keyed => do
        let parts ← sequenceParts (partsOf entries trail)
        return .keyed (ofParts parts)
  | leaf, _ => .ok (.scalar leaf)

def ofItems : List Tree → Nat → Trail → Outcome (List Patch)
  | [], _, _ => .ok []
  | t :: ts, position, trail => do
    let patch ← ofTreeAt t (trail.child (toString position))
    return patch :: (← ofItems ts (position + 1) trail)

/-- The patches of a mapping at the positions of its tokens. -/
def ofSlots : List (String × Tree) → Trail → SparseList Patch → Outcome (SparseList Patch)
  | [], _, slots => .ok slots
  | (key, t) :: rest, trail, slots =>
    let position := (Position.ofToken? key).getD 0
    do
      let patch ← ofTreeAt t (trail.child (toString position))
      ofSlots rest trail (slots.set position patch)

/-- What each entry is to the patch, or why it cannot be read. -/
def partsOf : List (String × Tree) → Trail → List (String × Outcome Part)
  | [], _ => []
  | (key, t) :: rest, trail =>
    let child := trail.child key
    let part : Outcome Part :=
      if Keyword.isGroup key then Part.group key <$> ofTreeAt t child
      else if key = Keyword.upsert then Part.upserts <$> upsertsOf t child
      else Part.plain key <$> ofTreeAt t child
    (key, part) :: partsOf rest trail

/-- The patches of an upsert directive. -/
def upsertsOf : Tree → Trail → Outcome (List (Option String × Patch))
  | .list items, trail => do
    let patches ← ofItems items 0 trail
    return patches.map fun p => (none, p)
  | .mapping entries, trail => do
    let patches ← ofNamed entries trail
    return orderUpserts patches
  | t, _ => fail (.malformedDirective Keyword.upsert
      ("expected a list or a mapping of patches but got " ++ t.compact))

def ofNamed : List (String × Tree) → Trail → Outcome (List (String × Patch))
  | [], _ => .ok []
  | (key, t) :: rest, trail => do
    let patch ← ofTreeAt t (trail.child key)
    return (key, patch) :: (← ofNamed rest trail)

end

/-- Reads a tree as a patch. -/
def ofTree (t : Tree) : Outcome Patch :=
  ofTreeAt t .root

end ConfigSweep.Patch
