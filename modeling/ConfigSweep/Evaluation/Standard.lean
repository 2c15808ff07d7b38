import ConfigSweep.Evaluation.Registry
import ConfigSweep.Tree.Equality

/-!
# Standard functions

Functions that are described by trees: constants, look-ups and integer arithmetic of 64 bits.
-/

namespace ConfigSweep

inductive StandardFunction where
  | const (value : Tree)
  | echo
  | list
  | get (path : List Tree)
  | equals (path : List Tree) (value : Tree)
  | add (summand : Int)
  | multiply (factor : Int)
  | addAt (path : List Tree) (summand : Int)
  | length
  | fail (message : String)
  deriving Repr

namespace StandardFunction

/-- Follows keys into mappings and positions into lists. -/
def lookUp? : List Tree → Tree → Option Tree
  | [], t => some t
  | .str key :: rest, .mapping entries => (Mapping.get? key entries).bind (lookUp? rest)
  | .int position :: rest, .list items =>
    if position < 0 then none else (items[position.toNat]?).bind (lookUp? rest)
  | _, _ => none

def lookUp (path : List Tree) (t : Tree) : Except String Tree :=
  match lookUp? path t with
  | some found => .ok found
  | none => .error ("nothing at " ++ (Tree.list path).compact)

/-- Applies an operation to an integer; the result must fit 64 bits. -/
def onInteger (f : Int → Int) (t : Tree) : Except String Tree :=
  match t.index? with
  | none => .error ("expected an integer but got " ++ t.compact)
  | some n =>
    match (Tree.int (f n)).index? with
    | none => .error "overflow"
    | some m => .ok (.int m)

def run : StandardFunction → TreeFunction
  | .const value, _ => .ok value
  | .echo, t => .ok t
  | .list, t => .ok (.list [t])
  | .get path, t => lookUp path t
  | .equals path value, t =>
    .ok (.bool ((lookUp? path t).any fun found => found.sameValue value))
  | .add summand, t => onInteger (· + summand) t
  | .multiply factor, t => onInteger (· * factor) t
  | .addAt path summand, t => (lookUp path t).bind (onInteger (· + summand))
  | .length, .list items => .ok (.int items.length)
  | .length, .mapping entries => .ok (.int entries.length)
  | .length, t => .error ("no length for " ++ t.compact)
  | .fail message, _ => .error message

/-- Reads the description of a function. -/
def ofTree? : Tree → Option StandardFunction
  | .list [.str "const", value] => some (.const value)
  | .list [.str "echo"] => some .echo
  | .list [.str "list"] => some .list
  | .list [.str "get", .list path] => some (.get path)
  | .list [.str "eq", .list path, value] => some (.equals path value)
  | .list [.str "add", .int n] => some (.add n)
  | .list [.str "mul", .int n] => some (.multiply n)
  | .list [.str "addat", .list path, .int n] => some (.addAt path n)
  | .list [.str "len"] => some .length
  | .list [.str "fail", .str message] => some (.fail message)
  | _ => none

end StandardFunction

end ConfigSweep
