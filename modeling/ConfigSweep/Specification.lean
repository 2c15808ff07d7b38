import ConfigSweep.Record.Reader
import ConfigSweep.StandardForm

/-!
# Sweep specifications

The typed view of a sweep in standard form: how to search, what to optimise and the declarations
of the axes. Keys without a meaning here are kept. A grid combines the candidates of all axes, the
first axis varying slowest.
-/

namespace ConfigSweep

/-- How the space of assignments is searched. -/
inductive SearchMethod where
  | grid
  | random
  | bayes
  deriving DecidableEq, Repr

inductive Goal where
  | minimize
  | maximize
  deriving DecidableEq, Repr

/-- A logged quantity to optimise. -/
structure Metric where
  name : String
  goal : Goal
  deriving DecidableEq, Repr

structure Specification where
  name : Option String := none
  method : SearchMethod
  metric : Option Metric := none
  /-- The declarations of the axes under their aliases. -/
  parameters : Mapping Tree
  /-- All other entries. -/
  extra : Mapping Tree := []
  deriving Repr

def SearchMethod.name : SearchMethod → String
  | .grid => "grid"
  | .random => "random"
  | .bayes => "bayes"

def Goal.name : Goal → String
  | .minimize => "minimize"
  | .maximize => "maximize"

namespace Record

def method : Reader SearchMethod :=
  variant ([SearchMethod.grid, .random, .bayes].map fun m => (m.name, m))

def goal : Reader Goal :=
  variant ([Goal.minimize, .maximize].map fun g => (g.name, g))

end Record

namespace Metric

def recordName : String := "struct Metric"

def ofEntries (entries : Mapping Tree) : Except Misfit Metric := do
  Record.inKeyOrder (fun key t =>
    match key with
    | "name" => discard (Record.text t)
    | "goal" => discard (Record.goal t)
    | _ => pure ()) entries
  let name ← Record.required "name" Record.text entries
  return ⟨name, ← Record.required "goal" Record.goal entries⟩

def ofItems (items : List Tree) : Except Misfit Metric := do
  let whole := recordName ++ " with 2 elements"
  let name ← Record.element 0 whole Record.text items
  let goal ← Record.element 1 whole Record.goal items
  Record.noMoreThan 2 items
  return ⟨name, goal⟩

def ofTree : Tree → Except Misfit Metric
  | .mapping entries => ofEntries entries
  | .list items => ofItems items
  | t => .error (.wrongType t recordName)

def toTree (m : Metric) : Tree :=
  .mapping [("name", .str m.name), ("goal", .str m.goal.name)]

end Metric

namespace Specification

def fieldNames : List String := ["name", "method", "metric", parametersKey]

/-- Reads a specification from a sweep in standard form. -/
def ofTree : Tree → Except Misfit Specification
  | .mapping entries => do
    Record.inKeyOrder (fun key t =>
      match key with
      | "name" => discard (Record.optional Record.text t)
      | "method" => discard (Record.method t)
      | "metric" => discard (Record.optional Metric.ofTree t)
      | "parameters" => discard (Record.mapping t)
      | _ => pure ()) entries
    return {
      name := ← Record.fieldOr "name" (Record.optional Record.text) none entries
      method := ← Record.required "method" Record.method entries
      metric := ← Record.fieldOr "metric" (Record.optional Metric.ofTree) none entries
      parameters := ← Record.required parametersKey Record.mapping entries
      extra := entries.filter fun e => !fieldNames.contains e.1 }
  | t => .error (.wrongType t "struct SweepSpec")

/-- The sweep in standard form; absent fields are left out. -/
def toTree (s : Specification) : Tree :=
  .mapping ((s.name.toList.map fun name => ("name", .str name))
    ++ [("method", .str s.method.name)]
    ++ (s.metric.toList.map fun metric => ("metric", metric.toTree))
    ++ [(parametersKey, .mapping s.parameters)]
    ++ s.extra)

/-- The candidates of an axis: its list of values, else its single value. -/
def candidates (name : String) (declaration : Tree) : Outcome (List Tree) :=
  match declaration with
  | .mapping entries =>
    match Mapping.get? "values" entries, Mapping.get? "value" entries with
    | some (.list []), _ => fail (.notEnumerable name "values list is empty")
    | some (.list (v :: vs)), _ => .ok (v :: vs)
    | some _, _ => fail (.notEnumerable name "values is not a list")
    | none, some value => .ok [value]
    | none, none => fail (.notEnumerable name "axis declares neither values nor value")
  | _ => fail (.notEnumerable name "axis declaration is not a mapping")

/-- All ways to choose one candidate for every alias, the first alias varying slowest. -/
def combinations : List (String × List Tree) → List (Mapping Tree)
  | [] => [[]]
  | (name, values) :: rest =>
    values.flatMap fun value => (combinations rest).map fun others => (name, value) :: others

/-- The assignments of the grid, in order. -/
def grid (s : Specification) : Outcome (List (Mapping Tree)) := do
  let axes ← s.parameters.mapM fun e => do return (e.1, ← candidates e.1 e.2)
  return combinations axes

end Specification

end ConfigSweep
