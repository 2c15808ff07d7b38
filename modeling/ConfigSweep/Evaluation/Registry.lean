import ConfigSweep.Evaluation
import ConfigSweep.Table

/-!
# Registered functions

A registry evaluates a call by the function registered under its expression, blanks at the ends
taken off, or else under its entry.
-/

namespace ConfigSweep

/-- A function of one tree that may fail with a message. -/
abbrev TreeFunction := Tree → Except String Tree

structure Registry where
  functions : Table TreeFunction

namespace Registry

def empty : Registry := ⟨.empty⟩

/-- Registers a function, in place of an earlier one of that name. -/
def register (name : String) (function : TreeFunction) (r : Registry) : Registry :=
  ⟨r.functions.insert name function⟩

def has (name : String) (r : Registry) : Bool :=
  r.functions.has name

def size (r : Registry) : Nat :=
  r.functions.size

def isEmpty (r : Registry) : Bool :=
  r.size == 0

/-- The function of a call, with the name under which it is registered. -/
def resolve? (r : Registry) (call : Call) : Option (String × TreeFunction) :=
  let name := Text.trimmed call.expression
  match r.functions.get? name with
  | some function => some (name, function)
  | none => call.entry.bind fun entry =>
    (r.functions.get? entry).map fun function => (entry, function)

def evaluator (r : Registry) : Evaluator := fun call argument =>
  match r.resolve? call with
  | none => fail (.unknownFunction call.label)
  | some (name, function) =>
    match function argument with
    | .ok value => .ok value
    | .error reason => fail (.evaluation name reason)

/-- The names that are registered, in order. -/
def description (r : Registry) : String :=
  "FunctionRegistry \x7b functions: [" ++ ", ".intercalate (r.functions.keys.map Text.quoted)
    ++ "] \x7d"

end Registry

end ConfigSweep
