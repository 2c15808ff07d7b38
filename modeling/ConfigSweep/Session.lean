import ConfigSweep.AliasTable.Record
import ConfigSweep.Json.Printer
import ConfigSweep.Json.Reader
import ConfigSweep.Merge
import ConfigSweep.Specification

/-!
# Sweep sessions

A session holds the base of all configurations and the alias table of a sweep, which together are
its persisted record, and the specification while the sweep is at hand. Assignments are turned
into overrides and merged into the base.
-/

namespace ConfigSweep

/-- What is kept of a session. -/
structure Metadata where
  base : Tree
  aliases : AliasTable
  deriving Repr

namespace Metadata

def recordName : String := "struct SweepMetadata"

def toTree (m : Metadata) : Tree :=
  .mapping [("base_config", m.base), ("compression", m.aliases.toTree)]

def ofEntries (entries : Mapping Tree) : Except Misfit Metadata := do
  Record.inKeyOrder (fun key t =>
    match key with
    | "compression" => discard (AliasTable.ofTree t)
    | _ => pure ()) entries
  let base ← Record.required "base_config" Record.any entries
  return ⟨base, ← Record.required "compression" AliasTable.ofTree entries⟩

def ofItems (items : List Tree) : Except Misfit Metadata := do
  let whole := recordName ++ " with 2 elements"
  let base ← Record.element 0 whole Record.any items
  let aliases ← Record.element 1 whole AliasTable.ofTree items
  Record.noMoreThan 2 items
  return ⟨base, aliases⟩

/-- Reads what was kept of a session. -/
def ofTree : Tree → Except Misfit Metadata
  | .mapping entries => ofEntries entries
  | .list items => ofItems items
  | t => .error (.wrongType t recordName)

/-- Reads back the JSON text of what was kept. Nothing but a nesting too deep keeps that text from
being read; a float may come back with another last digit. -/
def reread (m : Metadata) : Except Misfit Metadata :=
  let text := m.toTree.compact
  match Json.read? text with
  | some t => ofTree t
  | none => .error (.tooDeep ((Json.tooDeepAt? text).getD 0))

end Metadata

structure Session where
  metadata : Metadata
  specification : Option Specification := none
  deriving Repr

namespace Session

/-- A session for a sweep over a base. -/
def create (base sweep : Tree) : Outcome Session := do
  let (aliases, standard) ← Stopped.outcome (AliasTable.ofSweep sweep)
  match Specification.ofTree standard with
  | .ok specification => return ⟨⟨base, aliases⟩, some specification⟩
  | .error problem => fail (.record problem)

/-- A session from what was kept of one; its specification is gone. -/
def ofMetadata (metadata : Metadata) : Session :=
  ⟨metadata, none⟩

/-- The configuration of one assignment. -/
def configure (evaluator : Evaluator) (assignment : Mapping Tree) (s : Session) :
    Outcome Tree := do
  let overrides ← s.metadata.aliases.overrides assignment
  Tree.merge evaluator s.metadata.base overrides

/-- The configuration of one assignment, read as a record. -/
def configureAs {α : Type} (read : Record.Reader α) (evaluator : Evaluator)
    (assignment : Mapping Tree) (s : Session) : Outcome α := do
  match read (← s.configure evaluator assignment) with
  | .ok a => return a
  | .error problem => fail (.record problem)

/-- The configurations of the grid, in its order. -/
def configureGrid (evaluator : Evaluator) (s : Session) : Outcome (List Tree) :=
  match s.specification with
  | none => fail (.notEnumerable parametersKey
      "session was rebuilt from metadata without its specification")
  | some specification => do
    (← specification.grid).mapM fun assignment => s.configure evaluator assignment

end Session

end ConfigSweep
