import ConfigSweep.AxisKey
import ConfigSweep.Json.Printer
import ConfigSweep.Record.Misfit
import ConfigSweep.Trail

/-!
# Failures

A failure has a cause and at most one place: the trail of the innermost walk step that was under
way and the patch of that step. `Failure.locate` gives a failure its place and never changes one.
-/

namespace ConfigSweep

/-- The kinds of patches, as named in messages. -/
inductive PatchKind where
  | scalar
  | evaluation
  | list
  | indexKeyed
  | listEdit
  | mapping
  deriving DecidableEq, Repr

def PatchKind.name : PatchKind → String
  | .scalar => "scalar"
  | .evaluation => "evaluation"
  | .list => "list"
  | .indexKeyed => "index-keyed"
  | .listEdit => "list-edit"
  | .mapping => "mapping"

def Tree.Shape.name : Tree.Shape → String
  | .leaf => "scalar"
  | .list => "list"
  | .mapping => "mapping"

/-- Why a definition document is refused. -/
inductive DocumentProblem where
  | absent
  | notUnicode
  | unreadable
  | formatDisabled (format : String)
  | notMapping
  | misfit (problem : Misfit)
  deriving Repr

def DocumentProblem.message : DocumentProblem → String
  | .absent => "No such file or directory (os error 2)"
  | .notUnicode => "stream did not contain valid UTF-8"
  | .unreadable => "<syntax>"
  | .formatDisabled format =>
    format ++ " feature disabled: enable the '" ++ format
      ++ "' feature to support this file format"
  | .notMapping => "sweep definition must be a mapping with base_config and sweep_configuration"
  | .misfit problem => problem.message

inductive Cause where
  /-- A directive key is left in plain data; the trail leads to its mapping. -/
  | reservedKey (key : String) (trail : Trail)
  /-- A key contains a private token. -/
  | reservedToken (key : String) (trail : Trail) (token : String)
  /-- One alias would name two keys or values. -/
  | duplicateAlias (name existing claimant : String)
  | aliasCountMismatch (axis : AxisKey) (aliases values : Nat)
  | unknownAlias (name : String)
  | unknownValueAlias (axis : AxisKey) (value : Tree)
  | malformedEdit (problem : String)
  /-- A position outside a list; the index as authored. -/
  | indexOutOfRange (index : Int) (length : Nat)
  | lengthMismatch (expected actual : Nat)
  | shapeMismatch (base : Tree.Shape) (patch : PatchKind)
  /-- The node to merge into is gone. -/
  | detachedNode (trail : Trail)
  | malformedAxis (place problem : String)
  | malformedDirective (directive problem : String)
  | evaluation (function reason : String)
  | unknownFunction (name : String)
  | missingParameters
  | remainderMismatch (trail : Trail) (problem : String)
  | notEnumerable (axis problem : String)
  | document (path : String) (problem : DocumentProblem)
  | record (problem : Misfit)
  deriving Repr

namespace Cause

def message : Cause → String
  | .reservedKey key trail =>
    "key '" ++ key ++ "' is reserved for sweep configuration and cannot be used in " ++ trail.dotted
  | .reservedToken key trail token =>
    "key '" ++ key ++ "' at " ++ trail.dotted ++ " contains the reserved token '" ++ token ++ "'"
  | .duplicateAlias name existing claimant =>
    "alias '" ++ name ++ "' already names '" ++ existing ++ "' and cannot also name '"
      ++ claimant ++ "'"
  | .aliasCountMismatch axis aliases values =>
    "axis '" ++ axis.dotted ++ "' declares " ++ toString aliases ++ " aliases for "
      ++ toString values ++ " values"
  | .unknownAlias name => "unknown axis alias '" ++ name ++ "'"
  | .unknownValueAlias axis value =>
    "unknown value alias " ++ value.compact ++ " for axis '" ++ axis.dotted ++ "'"
  | .malformedEdit problem => "malformed list operation: " ++ problem
  | .indexOutOfRange index length =>
    "list index " ++ toString index ++ " is out of range for a list of length " ++ toString length
  | .lengthMismatch expected actual =>
    "expected a list of length " ++ toString expected ++ " but got a list of length "
      ++ toString actual
  | .shapeMismatch base patch =>
    "cannot merge a " ++ patch.name ++ " patch into a " ++ base.name ++ " value"
  | .detachedNode trail => "merge target at " ++ trail.dotted ++ " no longer exists"
  | .malformedAxis place problem => "malformed sweep axis at " ++ place ++ ": " ++ problem
  | .malformedDirective directive problem =>
    "malformed " ++ directive ++ " directive: " ++ problem
  | .evaluation function reason => "evaluation of '" ++ function ++ "' failed: " ++ reason
  | .unknownFunction name => "no function registered for '" ++ name ++ "'"
  | .missingParameters => "sweep configuration has no 'parameters' mapping"
  | .remainderMismatch trail problem =>
    "cannot restore remainder at " ++ trail.dotted ++ ": " ++ problem
  | .notEnumerable axis problem => "axis '" ++ axis ++ "' cannot be enumerated: " ++ problem
  | .document path problem => "sweep definition error in '" ++ path ++ "': " ++ problem.message
  | .record problem => "JSON error: " ++ problem.message

end Cause

/-- Where a failure arose: the trail as shown, and the text of the patch under way. -/
structure Place where
  path : String
  patch : String
  deriving DecidableEq, Repr

structure Failure where
  cause : Cause
  place : Option Place := none
  deriving Repr

namespace Failure

def isLocated (f : Failure) : Bool :=
  f.place.isSome

/-- Gives the failure a place unless it has one: the innermost step wins. -/
def locate (path : String) (patch : Tree) (f : Failure) : Failure :=
  match f.place with
  | some _ => f
  | none => { f with place := some ⟨path, patch.pretty⟩ }

def message (f : Failure) : String :=
  match f.place with
  | none => f.cause.message
  | some place =>
    f.cause.message ++ "\nConfiguration path trying to upsert: " ++ place.path
      ++ "\nConfiguration to upsert: " ++ place.patch

end Failure

abbrev Outcome (α : Type) := Except Failure α

/-- Fails for a cause, without a place. -/
def fail {α : Type} (cause : Cause) : Outcome α :=
  .error ⟨cause, none⟩

/-- Locates the failure of a step at `trail` that works on `patch`, which is built only then. -/
@[macro_inline]
def Outcome.located {α : Type} (trail : Trail) (patch : Tree) (outcome : Outcome α) : Outcome α :=
  match outcome with
  | .ok a => .ok a
  | .error f => .error (f.locate trail.dotted patch)

/-- The failure of an operation that changes a value in steps, and the value as it was left. -/
structure Stopped (σ : Type) where
  failure : Failure
  left : σ

namespace Stopped

variable {σ τ α : Type}

/-- The outcome of such an operation for those who drop the value on failure. -/
def outcome : Except (Stopped σ) α → Outcome α
  | .ok a => .ok a
  | .error stopped => .error stopped.failure

/-- The same operation on a part of a larger value. -/
def lift (whole : σ → τ) : Except (Stopped σ) σ → Except (Stopped τ) τ
  | .ok s => .ok (whole s)
  | .error stopped => .error ⟨stopped.failure, whole stopped.left⟩

end Stopped

end ConfigSweep
