import ConfigSweep.Evaluation
import ConfigSweep.SparseList

/-!
# List edit scripts

A script edits a list by inserting, overwriting and removing items, one instruction after the
other. It is written as a list of instructions or as a mapping from position tokens to them.
-/

namespace ConfigSweep

/-- The value that an instruction carries. -/
inductive EditValue where
  | literal (value : Tree)
  /-- A value computed from the root of the merge. -/
  | computed (call : Call)
  deriving Repr

/-- One instruction; positions are as authored. Without a value, the rest of the patch around the
script is the patch of the item. -/
inductive Edit where
  | insert (position : Int) (value : Option EditValue)
  | overwrite (position : Int) (value : Option EditValue)
  | remove (position : Int)
  deriving Repr

namespace EditValue

def ofTree : Tree → Outcome EditValue
  | .mapping entries =>
    match Mapping.get? Keyword.eval entries with
    | none => .ok (.literal (.mapping entries))
    | some payload =>
      if entries.length ≠ 1 then
        fail (.malformedDirective Keyword.eval "must be the only key in its mapping")
      else .computed <$> Call.ofTree payload
  | t => .ok (.literal t)

def toTree : EditValue → Tree
  | .literal value => value
  | .computed call => call.directive

end EditValue

namespace Edit

/-- A position, alone or in a list with a value. -/
def positionAndValue (operation : String) : Tree → Outcome (Int × Option EditValue)
  | .list [position, value] =>
    match position.index? with
    | none => fail (.malformedEdit
        ("expected an integer index for " ++ operation ++ " but got: " ++ position.compact))
    | some n => do return (n, some (← EditValue.ofTree value))
  | .list items => fail (.malformedEdit ("expected a list of length 2 for " ++ operation
      ++ " but got " ++ toString items.length ++ " items"))
  | t =>
    match t.index? with
    | none => fail (.malformedEdit
        ("expected an integer for " ++ operation ++ " but got: " ++ t.compact))
    | some n => .ok (n, none)

/-- Reads an instruction from its operation and argument. -/
def ofOperation (operation : String) (argument : Tree) : Outcome Edit :=
  if operation = Keyword.insert then do
    let (position, value) ← positionAndValue operation argument
    return .insert position value
  else if operation = Keyword.overwrite then do
    let (position, value) ← positionAndValue operation argument
    return .overwrite position value
  else if operation = Keyword.remove then
    match argument.index? with
    | none => fail (.malformedEdit
        ("expected an integer for " ++ operation ++ " but got: " ++ argument.compact))
    | some n => .ok (.remove n)
  else fail (.malformedEdit ("unknown list operation: " ++ operation))

/-- Reads an instruction; lists in disguise inside its argument are lists. -/
def ofTree : Tree → Outcome Edit
  | .mapping [(operation, argument)] => do
    let argument ← Stopped.outcome argument.revealAll
    ofOperation operation argument
  | .mapping _ =>
    fail (.malformedEdit "any list operation should be a mapping with a single key")
  | t => fail (.malformedEdit ("expected a mapping with a single key but got " ++ t.compact))

def argument (position : Int) : Option EditValue → Tree
  | none => .int position
  | some value => .list [.int position, value.toTree]

def toTree : Edit → Tree
  | .insert position value => .mapping [(Keyword.insert, argument position value)]
  | .overwrite position value => .mapping [(Keyword.overwrite, argument position value)]
  | .remove position => .mapping [(Keyword.remove, .int position)]

end Edit

abbrev Script := List Edit

namespace Script

/-- The instructions of a mapping at the positions of its tokens. -/
def slots (entries : Mapping Tree) : Outcome (SparseList Tree) :=
  entries.foldlM (fun s e =>
    match Position.ofToken? e.1 with
    | some position => .ok (s.set position e.2)
    | none => fail (.malformedEdit ("operation key '" ++ e.1
        ++ "' is not an index token such as " ++ Position.token 0))) .empty

/-- The instructions of a mapping in the order of their positions, which must cover
`0` to `count - 1`. -/
def inOrder (entries : Mapping Tree) : Outcome (List Tree) := do
  let s ← slots entries
  if s.length ≠ entries.length then
    fail (.malformedEdit ("operation indices must cover 0.." ++ toString entries.length
      ++ " without gaps"))
  else return s.slots.map (·.2)

def ofTree : Tree → Outcome Script
  | .list items => items.mapM Edit.ofTree
  | .mapping entries => do (← inOrder entries).mapM Edit.ofTree
  | t => fail (.malformedEdit
      ("expected a list or an index-keyed mapping of operations but got " ++ t.compact))

def toTree (script : Script) : Tree :=
  .list (script.map Edit.toTree)

end Script

end ConfigSweep
