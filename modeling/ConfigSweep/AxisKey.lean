import ConfigSweep.Tree.Path
import ConfigSweep.Vocabulary

/-!
# Axis keys

An axis key joins the tokens of the steps that lead to an axis with a separator. It can be cut
from the left and from the right; the two differ where occurrences of the separator overlap.
-/

namespace ConfigSweep

namespace Step

/-- A key stands for itself, a position for its token. -/
def token : Step → String
  | .key name => name
  | .index position => Position.token position

def ofToken (token : String) : Step :=
  match Position.ofToken? token with
  | some position => .index position
  | none => .key token

/-- How the step is shown in messages. -/
def label : Step → String
  | .key name => name
  | .index position => toString position

end Step

structure AxisKey where
  text : String
  deriving DecidableEq, Repr

namespace AxisKey

def separator : String := "__SEP__"

def ofSteps (steps : List Step) : AxisKey :=
  ⟨separator.intercalate (steps.map Step.token)⟩

/-- The key seen from one step higher up. -/
def under (parent : Step) (key : AxisKey) : AxisKey :=
  ⟨parent.token ++ separator ++ key.text⟩

/-- The tokens from the root to the axis. -/
def tokens (key : AxisKey) : List String :=
  (Text.pieces separator.toList key.text.toList).map String.ofList

/-- The tokens from the axis to the root. -/
def tokensFromRight (key : AxisKey) : List String :=
  (Text.piecesFromRight separator.toList key.text.toList).map String.ofList

def steps (key : AxisKey) : List Step :=
  key.tokens.map Step.ofToken

/-- The tokens joined by dots. -/
def dotted (key : AxisKey) : String :=
  ".".intercalate key.tokens

end AxisKey

end ConfigSweep
