/-!
# Ordered mappings

A mapping is the list of its entries in order of arrival. A key written again keeps its place and
takes the new value; a removed entry is replaced by the last one.
-/

namespace ConfigSweep

abbrev Mapping (α : Type) := List (String × α)

namespace Mapping

variable {α : Type}

def keys (m : Mapping α) : List String :=
  m.map (·.1)

/-- The value under `key`, that of the first entry if several carry it. -/
def get? (key : String) : Mapping α → Option α
  | [] => none
  | (k, v) :: rest => if k = key then some v else get? key rest

def has (key : String) (m : Mapping α) : Bool :=
  (m.get? key).isSome

/-- Writes `value` under `key`: in place when the key is there, else at the end. -/
def insert (key : String) (value : α) : Mapping α → Mapping α
  | [] => [(key, value)]
  | (k, v) :: rest => if k = key then (k, value) :: rest else (k, v) :: insert key value rest

/-- Removes `key`; the last entry moves into the freed place. -/
def remove (key : String) : Mapping α → Mapping α
  | [] => []
  | (k, v) :: rest =>
    if k = key then
      match rest.getLast? with
      | none => []
      | some last => last :: rest.dropLast
    else (k, v) :: remove key rest

/-- Entries written in turn into an empty mapping. -/
def ofEntries (entries : List (String × α)) : Mapping α :=
  entries.foldl (fun m e => m.insert e.1 e.2) []

end Mapping

end ConfigSweep
