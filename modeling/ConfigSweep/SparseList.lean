import ConfigSweep.Failure

/-!
# Sparse lists

A list with holes holds values at positions. Mappings that are keyed by position tokens only are
sparse lists in disguise; such a mapping becomes a list when its positions leave no gap.
-/

namespace ConfigSweep

/-- Values at positions, in ascending order of the positions. -/
structure SparseList (α : Type) where
  slots : List (Nat × α)
  deriving Repr, DecidableEq

namespace SparseList

variable {α : Type}

def empty : SparseList α := ⟨[]⟩

def setSlot (position : Nat) (value : α) : List (Nat × α) → List (Nat × α)
  | [] => [(position, value)]
  | (p, v) :: rest =>
    if position < p then (position, value) :: (p, v) :: rest
    else if position = p then (position, value) :: rest
    else (p, v) :: setSlot position value rest

/-- Fills a slot, in place of an earlier value. -/
def set (position : Nat) (value : α) (s : SparseList α) : SparseList α :=
  ⟨setSlot position value s.slots⟩

def highest? (s : SparseList α) : Option Nat :=
  s.slots.getLast?.map (·.1)

/-- One past the highest position, at most the greatest word of 64 bits. -/
def length (s : SparseList α) : Nat :=
  match s.highest? with
  | none => 0
  | some position => min (position + 1) (Word.bound - 1)

def size (s : SparseList α) : Nat :=
  s.slots.length

def isEmpty (s : SparseList α) : Bool :=
  s.slots.isEmpty

/-- The failure for a position beyond `length`; positions beyond a signed word are shown as the
greatest one. -/
def gap (position length : Nat) : Cause :=
  .indexOutOfRange (min position (Word.signedBound - 1) : Nat) length

/-- Succeeds when the filled positions are those below their number. -/
def checkGapless (s : SparseList α) : Outcome Unit :=
  match s.highest? with
  | some position => if s.size ≤ position then fail (gap position s.size) else .ok ()
  | none => .ok ()

/-- The values of a sparse list without gaps. -/
def toList (s : SparseList α) : Outcome (List α) := do
  s.checkGapless
  return s.slots.map (·.2)

/-- The mapping from position tokens to values. -/
def toMapping (s : SparseList α) : Mapping α :=
  s.slots.map fun slot => (Position.token slot.1, slot.2)

end SparseList

/-- The mapping has entries and all of its keys are position tokens. -/
def Mapping.isPositional {α : Type} (entries : Mapping α) : Bool :=
  !entries.isEmpty && entries.all fun e => Position.isToken e.1

namespace SparseList

variable {α : Type}

/-- The values of a mapping at the positions of its tokens; of two tokens for one position the
later counts. -/
def ofEntries (entries : Mapping α) : SparseList α :=
  entries.foldl (fun s e =>
    match Position.ofToken? e.1 with
    | some position => s.set position e.2
    | none => s) empty

def ofMapping? (entries : Mapping α) : Option (SparseList α) :=
  if Mapping.isPositional entries then some (ofEntries entries) else none

end SparseList

namespace Tree

/-- Turns a mapping that is keyed by position tokens into a list and leaves other trees alone. A
position beyond the number of entries fails and leaves the mapping; tokens that share a position
collapse, and if that opens a gap the mapping is left empty. -/
def reveal : Tree → Except (Stopped Tree) Tree
  | .mapping entries =>
    if Mapping.isPositional entries then
      let positions := entries.filterMap fun e => Position.ofToken? e.1
      match positions.find? (entries.length ≤ ·) with
      | some position =>
        .error ⟨⟨SparseList.gap position entries.length, none⟩, .mapping entries⟩
      | none =>
        match (SparseList.ofEntries entries).toList with
        | .ok items => .ok (.list items)
        | .error failure => .error ⟨failure, .mapping []⟩
    else .ok (.mapping entries)
  | t => .ok t

mutual

/-- Reveals the lists in all nodes, the innermost first, and stops at the first failure. -/
def revealAll : Tree → Except (Stopped Tree) Tree
  | .list items => Stopped.lift .list (revealItems items)
  | .mapping entries => (Stopped.lift .mapping (revealEntries entries)).bind reveal
  | leaf => .ok leaf

def revealItems : List Tree → Except (Stopped (List Tree)) (List Tree)
  | [] => .ok []
  | t :: ts =>
    match revealAll t with
    | .error stopped => .error ⟨stopped.failure, stopped.left :: ts⟩
    | .ok t => Stopped.lift (t :: ·) (revealItems ts)

def revealEntries :
    List (String × Tree) → Except (Stopped (List (String × Tree))) (List (String × Tree))
  | [] => .ok []
  | (key, t) :: rest =>
    match revealAll t with
    | .error stopped => .error ⟨stopped.failure, (key, stopped.left) :: rest⟩
    | .ok t => Stopped.lift ((key, t) :: ·) (revealEntries rest)

end

end Tree

end ConfigSweep
