import ConfigSweep.AliasTable
import ConfigSweep.Record.Reader

/-!
# Persisted alias tables

An alias table is kept as a record of four fields, of which the last may be absent. Reading accepts
the record as a mapping or as a list of its fields.
-/

namespace ConfigSweep.AliasTable

namespace Field

def keys : String := "keys"

def values : String := "values"

def remainder : String := "remaining_bunch"

def aliased : String := "aliased_axes"

end Field

/-- The record of a table; axes with value aliases are mentioned when there are some. -/
def toTree (t : AliasTable) : Tree :=
  .mapping ([(Field.keys, .mapping (t.keys.entries.map fun e => (e.1, Tree.str e.2))),
    (Field.values, .mapping t.values.entries), (Field.remainder, t.remainder)]
    ++ if t.aliased.size = 0 then [] else [(Field.aliased, .list (t.aliased.keys.map .str))])

def readKeys (t : Tree) : Except Misfit (Table String) :=
  Record.texts t

def readValues (t : Tree) : Except Misfit (Table Tree) := do
  return .ofEntries (← Record.mapping t)

def readAliased (t : Tree) : Except Misfit (Table Unit) := do
  let items ← Record.list t
  return .ofEntries (← items.mapM fun item => do return (← Record.text item, ()))

/-- What a table is called in messages. -/
def recordName : String := "struct CompressionContext"

def ofEntries (entries : Mapping Tree) : Except Misfit AliasTable := do
  Record.inKeyOrder (fun key t =>
    if key = Field.keys then discard (readKeys t)
    else if key = Field.values then discard (readValues t)
    else if key = Field.aliased then discard (readAliased t)
    else pure ()) entries
  return {
    keys := ← Record.required Field.keys readKeys entries
    values := ← Record.required Field.values readValues entries
    remainder := ← Record.fieldOr Field.remainder Record.any .null entries
    aliased := ← Record.fieldOr Field.aliased readAliased .empty entries }

def ofItems (items : List Tree) : Except Misfit AliasTable := do
  let whole := recordName ++ " with 4 elements"
  let t : AliasTable := {
    keys := ← Record.element 0 whole readKeys items
    values := ← Record.element 1 whole readValues items
    remainder := ← Record.elementOr 2 Record.any .null items
    aliased := ← Record.elementOr 3 readAliased .empty items }
  Record.noMoreThan 4 items
  return t

/-- Reads a table from its record. -/
def ofTree : Tree → Except Misfit AliasTable
  | .mapping entries => ofEntries entries
  | .list items => ofItems items
  | t => .error (.wrongType t recordName)

end ConfigSweep.AliasTable
