import ConfigSweep.Failure
import ConfigSweep.Record.Reader

/-!
# Deferred evaluation

A patch may ask for a value to be computed when it is merged. A call names the function, an
evaluator computes its value from an argument: the root of the merge, or the value that the patch
replaces.
-/

namespace ConfigSweep

structure Call where
  /-- The name of the function, or a text that defines it. -/
  expression : String
  /-- The function meant, where the text defines several. -/
  entry : Option String := none
  deriving DecidableEq, Repr

namespace Call

def named (expression : String) : Call :=
  ⟨expression, none⟩

def fieldNames : List String := ["expression", "function_of_interest"]

/-- Reads a call from the fields of a mapping. -/
def ofEntries (entries : Mapping Tree) : Except Misfit Call := do
  Record.inKeyOrder (fun key t =>
    match key with
    | "expression" => discard (Record.text t)
    | "function_of_interest" => discard (Record.optional Record.text t)
    | _ => throw (.unknownField key fieldNames)) entries
  let expression ← Record.required "expression" Record.text entries
  let entry ← Record.fieldOr "function_of_interest" (Record.optional Record.text) none entries
  return ⟨expression, entry⟩

/-- Reads what stands under the evaluation keyword: a text or a mapping of fields. -/
def ofTree : Tree → Outcome Call
  | .str expression => .ok (named expression)
  | .mapping entries =>
    match ofEntries entries with
    | .ok call => .ok call
    | .error problem => fail (.malformedDirective Keyword.eval problem.message)
  | t => fail (.malformedDirective Keyword.eval
      ("expected a string or a mapping but got " ++ t.compact))

/-- What `ofTree` reads back. -/
def toTree (call : Call) : Tree :=
  match call.entry with
  | none => .str call.expression
  | some entry =>
    .mapping [("expression", .str call.expression), ("function_of_interest", .str entry)]

/-- The call as a record; an absent entry is left out. -/
def toRecord (call : Call) : Tree :=
  match call.entry with
  | none => .mapping [("expression", .str call.expression)]
  | some _ => call.toTree

/-- The mapping that asks for the call. -/
def directive (call : Call) : Tree :=
  .mapping [(Keyword.eval, call.toTree)]

/-- The name shown in messages. -/
def label (call : Call) : String :=
  call.entry.getD (Text.trimmed call.expression)

end Call

/-- Computes the value of a call from an argument. -/
abbrev Evaluator := Call → Tree → Outcome Tree

/-- Refuses every call. -/
def Evaluator.refusing : Evaluator :=
  fun call _ => fail (.unknownFunction call.label)

end ConfigSweep
