import ConfigSweep.Mapping

/-!
# Sorted tables

A table maps texts to values and lists them in ascending order, texts being ordered by their code
points.
-/

namespace ConfigSweep

structure Table (α : Type) where
  entries : List (String × α)
  deriving Repr, DecidableEq

namespace Table

variable {α : Type}

def empty : Table α := ⟨[]⟩

/-- Puts an entry before the first one of a greater key; an entry of the same key is replaced. -/
def insertEntry (key : String) (value : α) : List (String × α) → List (String × α)
  | [] => [(key, value)]
  | (k, v) :: rest =>
    if key < k then (key, value) :: (k, v) :: rest
    else if key = k then (key, value) :: rest
    else (k, v) :: insertEntry key value rest

def insert (key : String) (value : α) (t : Table α) : Table α :=
  ⟨insertEntry key value t.entries⟩

def get? (key : String) (t : Table α) : Option α :=
  Mapping.get? key t.entries

def has (key : String) (t : Table α) : Bool :=
  (t.get? key).isSome

def keys (t : Table α) : List String :=
  t.entries.map (·.1)

def size (t : Table α) : Nat :=
  t.entries.length

/-- Entries written in turn into the empty table; the last of one key stays. -/
def ofEntries (entries : List (String × α)) : Table α :=
  entries.foldl (fun t e => t.insert e.1 e.2) empty

end Table

end ConfigSweep
