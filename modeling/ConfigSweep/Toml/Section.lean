import ConfigSweep.Tree

/-!
# TOML tables under construction

Headers and dotted keys may come back to a table only under rules that depend on how the table came
about. Values, inline tables among them, are closed.
-/

namespace ConfigSweep.Toml

/-- How a table came about. -/
inductive Origin where
  | header
  /-- By a longer header; its own header may still come. -/
  | implied
  | dotted
  deriving DecidableEq, Repr

inductive Node where
  | value (t : Tree)
  | table (origin : Origin) (entries : List (String × Node))
  /-- The elements of a list of tables with headers of their own, at least one. -/
  | tables (items : List (List (String × Node)))

mutual

def Node.toTree : Node → Tree
  | .value t => t
  | .table _ entries => .mapping (entryTrees entries)
  | .tables items => .list (itemTrees items)

def entryTrees : List (String × Node) → List (String × Tree)
  | [] => []
  | (key, node) :: rest => (key, node.toTree) :: entryTrees rest

def itemTrees : List (List (String × Node)) → List Tree
  | [] => []
  | entries :: rest => .mapping (entryTrees entries) :: itemTrees rest

end

/-- Changes the table that a path leads to from a table of a given origin; tables on the way are
made as needed. A path in a dotted key does not run through a table that has a header. A list of
tables is entered at its last element. -/
def within? {α : Type} (dotted : Bool)
    (change : Origin → Mapping Node → Option (Mapping Node × α)) :
    List String → Origin → Mapping Node → Option (Mapping Node × α)
  | [], origin, entries => change origin entries
  | key :: rest, _, entries =>
    match entries.get? key with
    | none => do
      let origin := if dotted then .dotted else .implied
      let (below, a) ← within? dotted change rest origin []
      return (entries.insert key (.table origin below), a)
    | some (.table origin below) =>
      if dotted && origin == .header then none
      else do
        let (below, a) ← within? dotted change rest origin below
        return (entries.insert key (.table origin below), a)
    | some (.tables items) => do
      let (last, a) ← within? dotted change rest .header (← items.getLast?)
      return (entries.insert key (.tables (items.dropLast ++ [last])), a)
    | some (.value _) => none

/-- A dotted key: the tables that it leads through, and its last part. -/
structure Key where
  path : List String
  last : String
  deriving DecidableEq, Repr

/-- Writes a new entry under a dotted key. The table that holds it must have come about by dotted
keys if the key has a path, and otherwise not. -/
def insertNew? (key : Key) (node : Node) (entries : Mapping Node) : Option (Mapping Node) :=
  let dotted := !key.path.isEmpty
  (within? dotted (fun origin entries =>
    if (origin == .dotted) != dotted || entries.has key.last then none
    else some (entries.insert key.last node, ())) key.path .header entries).map (·.1)

structure Header where
  key : Key
  isElement : Bool
  deriving DecidableEq, Repr

/-- A document being read: all tables before the current header, and the table of that header. -/
structure Sections where
  root : Mapping Node := []
  header : Option Header := none
  current : Mapping Node := []

namespace Sections

/-- Puts the table of the current header in its place. -/
def close? (s : Sections) : Option (Mapping Node) :=
  match s.header with
  | none => some s.current
  | some ⟨key, isElement⟩ =>
    (within? false (fun _ entries =>
      match entries.get? key.last with
      | none =>
        let node := if isElement then .tables [s.current] else .table .header s.current
        some (entries.insert key.last node, ())
      | some (.tables items) =>
        if isElement then some (entries.insert key.last (.tables (items ++ [s.current])), ())
        else none
      | some _ => none) key.path .header s.root).map (·.1)

/-- Starts the table of a header. A table that was only implied before is taken out, to be put back
at the end of its parent. -/
def startHeader? (s : Sections) (header : Header) : Option Sections := do
  let root ← s.close?
  if header.isElement then return ⟨root, some header, []⟩
  else
    let (root, current) ← within? false (fun _ entries =>
      match entries.get? header.key.last with
      | none => some (entries, [])
      | some (.table .implied below) =>
        some (entries.filter fun e => e.1 ≠ header.key.last, below)
      | some _ => none) header.key.path .header root
    return ⟨root, some header, current⟩

/-- Writes a value into the current table. -/
def insertValue? (s : Sections) (key : Key) (value : Tree) : Option Sections :=
  (insertNew? key (.value value) s.current).map fun current => { s with current }

def finish? (s : Sections) : Option Tree :=
  s.close?.map fun root => .mapping (entryTrees root)

end Sections

end ConfigSweep.Toml
