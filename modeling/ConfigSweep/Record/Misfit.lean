import ConfigSweep.Number.Layout
import ConfigSweep.Text.Quoted
import ConfigSweep.Tree

/-!
# Trees that do not fit a record

Why a tree cannot be read as a record, and how that is said.
-/

namespace ConfigSweep

/-- What a message says about the tree that was met. -/
def Tree.described : Tree → String
  | .null => "null"
  | .bool true => "boolean `true`"
  | .bool false => "boolean `false`"
  | .int n => "integer `" ++ toString n ++ "`"
  | .float x => "floating point `" ++ x.text ++ "`"
  | .str text => "string " ++ Text.quoted text
  | .list _ => "sequence"
  | .mapping _ => "map"

inductive Misfit where
  | missingField (name : String)
  | unknownField (name : String) (known : List String)
  | unknownVariant (name : String) (known : List String)
  | wrongType (found : Tree) (expected : String)
  | unfitValue (found : Tree) (expected : String)
  | tooShort (length : Nat) (expected : String)
  | tooLong (length : Nat)
  /-- The record's text, of one line, nests too deep at a column. -/
  | tooDeep (column : Nat)
  deriving Repr

namespace Misfit

def ticked (name : String) : String :=
  "`" ++ name ++ "`"

/-- Two alternatives are joined by a word, more are listed. -/
def alternatives : List String → String
  | [a, b] => ticked a ++ " or " ++ ticked b
  | names => "one of " ++ ", ".intercalate (names.map ticked)

def message : Misfit → String
  | .missingField name => "missing field " ++ ticked name
  | .unknownField name known =>
    "unknown field " ++ ticked name ++ ", expected " ++ alternatives known
  | .unknownVariant name known =>
    "unknown variant " ++ ticked name ++ ", expected " ++ alternatives known
  | .wrongType found expected => "invalid type: " ++ found.described ++ ", expected " ++ expected
  | .unfitValue found expected => "invalid value: " ++ found.described ++ ", expected " ++ expected
  | .tooShort length expected => "invalid length " ++ toString length ++ ", expected " ++ expected
  | .tooLong length =>
    "invalid length " ++ toString length ++ ", expected fewer elements in array"
  | .tooDeep column => "recursion limit exceeded at line 1 column " ++ toString column

end Misfit

end ConfigSweep
