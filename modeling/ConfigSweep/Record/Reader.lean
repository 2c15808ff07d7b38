import ConfigSweep.Record.Misfit
import ConfigSweep.Table

/-!
# Reading records from trees

A record is read from a mapping by field names, or from a list by position where that is allowed.
In a mapping the values are checked in the order of its keys, then absent fields are missed in the
order of their declaration.
-/

namespace ConfigSweep.Record

abbrev Reader (α : Type) := Tree → Except Misfit α

def text : Reader String
  | .str s => .ok s
  | t => .error (.wrongType t "a string")

def list : Reader (List Tree)
  | .list items => .ok items
  | t => .error (.wrongType t "a sequence")

def mapping : Reader (Mapping Tree)
  | .mapping entries => .ok entries
  | t => .error (.wrongType t "a map")

def any : Reader Tree :=
  .ok

/-- Null stands for an absent value. -/
def optional {α : Type} (read : Reader α) : Reader (Option α)
  | .null => .ok none
  | t => some <$> read t

/-- An unsigned integer of so many bits. -/
def unsigned (bits : Nat) : Reader Nat
  | .int n =>
    if 0 ≤ n ∧ n < Nat.pow 2 bits then .ok n.toNat
    else .error (.unfitValue (.int n) ("u" ++ toString bits))
  | t => .error (.wrongType t ("u" ++ toString bits))

/-- A list of octets. -/
def octets (t : Tree) : Except Misfit (List Nat) := do
  (← list t).mapM (unsigned 8)

/-- A table of texts. -/
def texts (t : Tree) : Except Misfit (Table String) := do
  return .ofEntries (← (← mapping t).mapM fun e => do return (e.1, ← text e.2))

/-- One of the named variants, as a text or as a mapping from the name to null. -/
def variant {α : Type} (variants : List (String × α)) : Reader α
  | .str name => find name
  | .mapping [(name, content)] => do
    let found ← find name
    match content with
    | .null => return found
    | t => throw (.wrongType t "unit")
  | .mapping entries => .error (.unfitValue (.mapping entries) "map with a single key")
  | t => .error (.wrongType t "string or map")
where
  find (name : String) : Except Misfit α :=
    match Mapping.get? name variants with
    | some found => .ok found
    | none => .error (.unknownVariant name (variants.map (·.1)))

/-- Checks the value of every field in the order of the keys. -/
def inKeyOrder (check : String → Tree → Except Misfit Unit) (entries : Mapping Tree) :
    Except Misfit Unit :=
  entries.forM fun e => check e.1 e.2

/-- The value of a field that must be there. -/
def required {α : Type} (name : String) (read : Reader α) (entries : Mapping Tree) :
    Except Misfit α :=
  match entries.get? name with
  | some t => read t
  | none => .error (.missingField name)

/-- The value of a field, or what stands for its absence. -/
def fieldOr {α : Type} (name : String) (read : Reader α) (absent : α) (entries : Mapping Tree) :
    Except Misfit α :=
  match entries.get? name with
  | some t => read t
  | none => .ok absent

/-- The value at a position that must be there; `whole` describes the list that was expected. -/
def element {α : Type} (position : Nat) (whole : String) (read : Reader α) (items : List Tree) :
    Except Misfit α :=
  match items[position]? with
  | some t => read t
  | none => .error (.tooShort position whole)

/-- The value at a position, or what stands for its absence. -/
def elementOr {α : Type} (position : Nat) (read : Reader α) (absent : α) (items : List Tree) :
    Except Misfit α :=
  match items[position]? with
  | some t => read t
  | none => .ok absent

/-- A record takes no more elements than it has fields. -/
def noMoreThan (count : Nat) (items : List Tree) : Except Misfit Unit :=
  if items.length ≤ count then .ok () else .error (.tooLong items.length)

end ConfigSweep.Record
