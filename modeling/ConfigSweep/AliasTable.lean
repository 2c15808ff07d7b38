import ConfigSweep.Axis
import ConfigSweep.Table
import ConfigSweep.TokenTrie
import ConfigSweep.Tree.Equality

/-!
# Alias tables

Outside, an axis is known by an alias: its own identifier, or else the shortest dotted run of its
last tokens that no other axis without identifier shares. Values of an axis may have aliases too.
The tables translate back, and are kept with what the axes left of the parameters.
-/

namespace ConfigSweep

structure AliasTable where
  /-- From the texts of axis keys to aliases. -/
  keys : Table String := .empty
  /-- From value aliases to the values that they stand for. -/
  values : Table Tree := .empty
  /-- The parameters without their axes. -/
  remainder : Tree := .null
  /-- The texts of the keys of axes whose values have aliases. -/
  aliased : Table Unit := .empty
  deriving Repr

namespace AliasTable

def empty : AliasTable := {}

/-- The number of axes that have an alias. -/
def size (t : AliasTable) : Nat :=
  t.keys.size

def aliasOf? (key : AxisKey) (t : AliasTable) : Option String :=
  t.keys.get? key.text

def isAliased (key : AxisKey) (t : AliasTable) : Bool :=
  t.aliased.has key.text

/-- From aliases to the axes that own them; of two axes with one alias the later. -/
abbrev Owners := Table AxisKey

def owners (t : AliasTable) : Owners :=
  .ofEntries (t.keys.entries.map fun e => (e.2, ⟨e.1⟩))

/-- Gives an alias to an axis, unless another axis owns it. -/
def claim (name : String) (key : AxisKey) (owners : Owners) : Outcome Owners :=
  match owners.get? name with
  | none => .ok (owners.insert name key)
  | some owner =>
    if owner = key then .ok owners
    else fail (.duplicateAlias name owner.dotted key.dotted)

def setKey (key : AxisKey) (name : String) (t : AliasTable) : AliasTable :=
  { t with keys := t.keys.insert key.text name }

/-- Registers aliases of values; an alias may come again for the same value. -/
def nameValues (axis : AxisKey) :
    List (Tree × Tree) → Table Tree → Except (Stopped (Table Tree)) (Table Tree)
  | [], known => .ok known
  | (.str name, value) :: rest, known =>
    match known.get? name with
    | none => nameValues axis rest (known.insert name value)
    | some existing =>
      if existing.sameValue value then nameValues axis rest known
      else .error ⟨⟨.duplicateAlias name existing.compact value.compact, none⟩, known⟩
  | (other, _) :: _, known =>
    .error ⟨⟨.malformedAxis axis.dotted
      ("value aliases must be strings but got " ++ other.compact), none⟩, known⟩

/-- The result of a registration: the table, and the declaration as seen outside. -/
abbrev Registered := AliasTable × Mapping Tree

/-- Stops a registration for a cause. -/
def refuse {α : Type} (t : AliasTable) (cause : Cause) : Except (Stopped AliasTable) α :=
  .error ⟨⟨cause, none⟩, t⟩

/-- Replaces the values of an axis by the aliases that it declares for them. -/
def registerValues (key : AxisKey) (declaration : Mapping Tree) (t : AliasTable) :
    Except (Stopped AliasTable) Registered :=
  let stripped := declaration.remove Keyword.valueAliases
  match declaration.get? Keyword.valueAliases with
  | none => .ok (t, stripped)
  | some (.list aliases) =>
    match stripped.get? "values" with
    | some (.list values) =>
      if aliases.length ≠ values.length then
        t.refuse (.aliasCountMismatch key aliases.length values.length)
      else
        match nameValues key (aliases.zip values) t.values with
        | .error stopped => .error ⟨stopped.failure, { t with values := stopped.left }⟩
        | .ok known =>
          .ok ({ t with values := known, aliased := t.aliased.insert key.text () },
            stripped.insert "values" (.list aliases))
    | _ => t.refuse (.malformedAxis key.dotted (Keyword.valueAliases ++ " requires a values list"))
  | some _ => t.refuse (.malformedAxis key.dotted (Keyword.valueAliases ++ " must be a list"))

/-- Registers the identifier of an axis, if it declares one. -/
def registerIdentifier (axis : Axis) (owners : Owners) (t : AliasTable) :
    Outcome (Owners × AliasTable) :=
  match axis.declaration.get? Keyword.identifier with
  | none => .ok (owners, t)
  | some (.str name) => do
    let owners ← claim name axis.key owners
    return (owners, t.setKey axis.key name)
  | some other => fail (.malformedAxis axis.key.dotted
      (Keyword.identifier ++ " must be a string but got " ++ other.compact))

/-- The outcome of registering axes: who owns which alias, the table, and the axes with the
declarations that are seen outside. -/
structure Registration where
  owners : Owners
  table : AliasTable
  axes : List Axis

/-- Registers what the axes declare themselves. -/
def registerDeclared : List Axis → Owners → AliasTable → Except (Stopped AliasTable) Registration
  | [], owners, t => .ok ⟨owners, t, []⟩
  | axis :: rest, owners, t =>
    match t.registerIdentifier axis owners with
    | .error failure => .error ⟨failure, t⟩
    | .ok (owners, t) => do
      let (t, declaration) ← t.registerValues axis.key (axis.declaration.remove Keyword.identifier)
      let r ← registerDeclared rest owners t
      return { r with axes := ⟨axis.key, declaration⟩ :: r.axes }

/-- The shortest dotted run of last tokens that belongs to one key only, or all tokens of the key;
keys are given by their tokens from the right. -/
def derivedAlias (trie : TokenTrie) (tokens : List String) : String :=
  ".".intercalate (trie.unsharedRun tokens).reverse

/-- Claims the derived aliases of keys in turn. -/
def claimDerived (trie : TokenTrie) :
    List AxisKey → Owners → Outcome (List (AxisKey × String))
  | [], _ => .ok []
  | key :: rest, owners => do
    let name := derivedAlias trie key.tokensFromRight
    let owners ← claim name key owners
    return (key, name) :: (← claimDerived trie rest owners)

/-- The declarations of axes under their aliases. -/
def declarations (axes : List Axis) (t : AliasTable) : Mapping Tree :=
  .ofEntries (axes.map fun axis =>
    ((t.aliasOf? axis.key).getD axis.key.dotted, .mapping axis.declaration))

/-- Registers axes and returns their declarations under their aliases. What was registered before
a failure stays. -/
def register (axes : List Axis) (t : AliasTable) : Except (Stopped AliasTable) Registered := do
  let r ← registerDeclared axes t.owners t
  let anonymous := (r.axes.map Axis.key).filter fun key => (r.table.aliasOf? key).isNone
  let trie := TokenTrie.ofLists (anonymous.map AxisKey.tokensFromRight)
  match claimDerived trie anonymous r.owners with
  | .error failure => .error ⟨failure, r.table⟩
  | .ok derived =>
    let table := derived.foldl (fun t e => t.setKey e.1 e.2) r.table
    return (table, table.declarations r.axes)

/-- The axis and the value that one choice stands for. -/
def resolveChoice (owners : Owners) (name : String) (value : Tree) (t : AliasTable) :
    Outcome (AxisKey × Tree) :=
  match owners.get? name with
  | none => fail (.unknownAlias name)
  | some key =>
    if t.isAliased key then
      match value.text?.bind fun text => t.values.get? text with
      | some meant => .ok (key, meant)
      | none => fail (.unknownValueAlias key value)
    else .ok (key, value)

/-- The axes and values that an assignment of values to aliases stands for. -/
def resolve (assignment : Mapping Tree) (t : AliasTable) : Outcome (List (AxisKey × Tree)) :=
  let owners := t.owners
  assignment.mapM fun e => t.resolveChoice owners e.1 e.2

end AliasTable

end ConfigSweep
