import ConfigSweep.Record.Reader

/-!
# Model configurations

A record that the configuration of an assignment can be read as: the description of a model.
-/

namespace ConfigSweep

/-- A model, by its kind and its depth, which is a word of 32 bits. -/
structure Model where
  kind : String
  depth : Nat
  deriving DecidableEq, Repr

namespace Model

def ofEntries (entries : Mapping Tree) : Except Misfit Model := do
  Record.inKeyOrder (fun key t =>
    match key with
    | "kind" => discard (Record.text t)
    | "depth" => discard (Record.unsigned 32 t)
    | _ => pure ()) entries
  return ⟨← Record.required "kind" Record.text entries,
    ← Record.required "depth" (Record.unsigned 32) entries⟩

def ofItems (items : List Tree) : Except Misfit Model := do
  let whole := "struct Model with 2 elements"
  let kind ← Record.element 0 whole Record.text items
  let depth ← Record.element 1 whole (Record.unsigned 32) items
  Record.noMoreThan 2 items
  return ⟨kind, depth⟩

def ofTree : Tree → Except Misfit Model
  | .mapping entries => ofEntries entries
  | .list items => ofItems items
  | t => .error (.wrongType t "struct Model")

def toTree (m : Model) : Tree :=
  .mapping [("kind", .str m.kind), ("depth", .int m.depth)]

end Model

/-- A configuration that holds nothing but a model. -/
structure ModelConfiguration where
  model : Model
  deriving DecidableEq, Repr

namespace ModelConfiguration

def ofTree : Tree → Except Misfit ModelConfiguration
  | .mapping entries => do return ⟨← Record.required "model" Model.ofTree entries⟩
  | .list items => do
    let model ← Record.element 0 "struct Config with 1 element" Model.ofTree items
    Record.noMoreThan 1 items
    return ⟨model⟩
  | t => .error (.wrongType t "struct Config")

def toTree (c : ModelConfiguration) : Tree :=
  .mapping [("model", c.model.toTree)]

end ModelConfiguration

end ConfigSweep
