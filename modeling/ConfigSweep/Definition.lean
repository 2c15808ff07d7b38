import ConfigSweep.Json.Reader
import ConfigSweep.Record.Reader
import ConfigSweep.Session
import ConfigSweep.Toml.Reader

/-!
# Sweep definitions

A definition document holds a base configuration and a sweep over it. The extension of its path
decides the format.
-/

namespace ConfigSweep

/-- The formats of definition documents. -/
inductive DocumentFormat where
  | json
  | toml
  /-- A format that is known but not supported. -/
  | unsupported (name : String)
  deriving DecidableEq, Repr

namespace DocumentFormat

/-- The components of a path, those that stay in place left out. -/
def components (path : String) : List (List Char) :=
  (Text.pieces ['/'] path.toList).filter fun c => !c.isEmpty && c != ['.']

/-- What follows the last point of the last component, if something precedes that point. -/
def extension? (path : String) : Option String :=
  match (components path).getLast? with
  | none => none
  | some name =>
    if name = ['.', '.'] then none
    else
      match Text.beforeLast? '.' name with
      | none => none
      | some [] => none
      | some before => some (String.ofList (name.drop (before.length + 1)))

/-- The format of a document by its extension, letter case aside. -/
def ofPath (path : String) : DocumentFormat :=
  match (extension? path).map String.toLower with
  | some "json" => .json
  | some "json5" => .unsupported "json5"
  | some "yaml" => .unsupported "yaml"
  | some "yml" => .unsupported "yaml"
  | _ => .toml

/-- Reads the text of a document in a format. -/
def read : DocumentFormat → String → Except DocumentProblem Tree
  | .json, text => (Json.read? text).elim (.error .unreadable) .ok
  | .toml, text => (Toml.read? text).elim (.error .unreadable) .ok
  | .unsupported name, _ => .error (.formatDisabled name)

end DocumentFormat

/-- What a sweep is authored from. -/
structure Definition where
  base : Tree
  sweep : Tree
  deriving Repr

namespace Definition

def fieldNames : List String := ["base_config", "sweep_configuration"]

def ofEntries (entries : Mapping Tree) : Except Misfit Definition := do
  Record.inKeyOrder (fun key _ =>
    if fieldNames.contains key then pure () else throw (.unknownField key fieldNames)) entries
  let base ← Record.required "base_config" Record.any entries
  return ⟨base, ← Record.required "sweep_configuration" Record.any entries⟩

def ofTree : Tree → Except DocumentProblem Definition
  | .mapping entries => (ofEntries entries).mapError .misfit
  | _ => .error .notMapping

def toTree (d : Definition) : Tree :=
  .mapping [("base_config", d.base), ("sweep_configuration", d.sweep)]

/-- Reads a definition from the text of a document. -/
def parse (path text : String) : Outcome Definition :=
  match (DocumentFormat.ofPath path).read text >>= ofTree with
  | .ok d => .ok d
  | .error problem => fail (.document path problem)

/-- Reads a definition from the bytes of a file, which may be absent. -/
def load (path : String) (content : Option ByteArray) : Outcome Definition :=
  match content with
  | none => fail (.document path .absent)
  | some bytes =>
    match String.fromUTF8? bytes with
    | none => fail (.document path .notUnicode)
    | some text => parse path text

/-- A session for the sweep of a definition. -/
def session (d : Definition) : Outcome Session :=
  Session.create d.base d.sweep

end Definition

end ConfigSweep
