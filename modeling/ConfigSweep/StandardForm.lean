import ConfigSweep.AliasTable
import ConfigSweep.Axis.Placement
import ConfigSweep.Defaults

/-!
# Sweeps in standard form

In standard form the parameters of a sweep are the declarations of its axes under their aliases.
The alias table made on the way turns an assignment of values to aliases into the tree of
overrides that the authored parameters stand for.
-/

namespace ConfigSweep

/-- The key of the parameters in a sweep. -/
def parametersKey : String := "parameters"

namespace AliasTable

/-- The alias table of a sweep and its standard form; a failure leaves the table as far as it got.
All keys of the sweep but the parameters are passed on. -/
def ofSweep (sweep : Tree) : Except (Stopped AliasTable) (AliasTable × Tree) :=
  match sweep with
  | .mapping entries =>
    match Mapping.get? parametersKey entries with
    | some (.mapping parameters) =>
      match (Tree.mapping parameters).splitAxes with
      | .error failure => .error ⟨failure, .empty⟩
      | .ok split => do
        let (table, declarations) ← register split.axes { remainder := split.remainder }
        return (table, .mapping (Mapping.insert parametersKey (.mapping declarations) entries))
    | _ => refuse .empty .missingParameters
  | _ => refuse .empty .missingParameters

/-- The overrides of an assignment, filled up with what the axes left of the parameters. -/
def overrides (assignment : Mapping Tree) (t : AliasTable) : Outcome Tree := do
  let tree ← Tree.ofAxisValues (← t.resolve assignment)
  Stopped.outcome (tree.withDefaults t.remainder)

end AliasTable

end ConfigSweep
