import ConfigSweep.Number.Word
import ConfigSweep.Text.Pieces

/-!
# Reserved vocabulary

The keys that carry meaning in sweep and patch trees, the tokens that stand for list positions,
and calls that are embedded in texts. Everything else is plain data.
-/

namespace ConfigSweep

namespace Keyword

/-- Marks a mapping as a sweep axis. -/
def sweep : String := "sweep"

/-- The alias of an axis, given by its author. -/
def identifier : String := "sweep_identifier"

/-- The aliases of an axis' values, one for each. -/
def valueAliases : String := "sweep_alias"

/-- How the keys of patches that apply after their siblings begin. -/
def groupStem : String := "sweep_group"

/-- Ordered patches that apply last. -/
def upsert : String := "dy__upsert"

/-- The edit script of a list. -/
def operations : String := "dy__list__operations"

def insert : String := "dy__insert"

def remove : String := "dy__remove"

def overwrite : String := "dy__overwrite"

/-- A value that is computed when the patch is merged. -/
def eval : String := "dy__eval"

/-- The reserved keys other than those of groups. -/
def all : List String :=
  [sweep, identifier, valueAliases, upsert, operations, insert, remove, overwrite, eval]

/-- The key names a patch that applies after its siblings. -/
def isGroup (key : String) : Bool :=
  groupStem.toList.isPrefixOf key.toList

/-- The key may only be used as a directive. -/
def isReserved (key : String) : Bool :=
  isGroup key || all.contains key

end Keyword

namespace Position

/-- How tokens of list positions begin. -/
def stem : String := "__IDX__"

/-- The token of a list position. -/
def token (position : Nat) : String :=
  String.ofList (stem.toList ++ Nat.toDigits 10 position)

/-- The value of decimal digits, the first being the most significant. -/
def valueOf (digits : List Char) : Nat :=
  digits.foldl (fun n c => n * 10 + (c.toNat - 48)) 0

/-- The position that a token stands for: any digits behind the stem whose value fits an unsigned
word. -/
def ofToken? (key : String) : Option Nat :=
  (Text.dropStem? stem.toList key.toList).bind fun digits =>
    if digits.isEmpty || !digits.all Char.isDigit then none
    else if valueOf digits < Word.bound then some (valueOf digits) else none

def isToken (key : String) : Bool :=
  (ofToken? key).isSome

end Position

/-- The name of a call embedded in a text: what stands between the parenthesis that follows the
first occurrence of the evaluation keyword and the last closing parenthesis. -/
def embeddedCall? (text : String) : Option String :=
  (Text.after? Keyword.eval.toList text.toList).bind fun rest =>
    (Text.dropStem? ['('] rest).bind fun inner =>
      (Text.beforeLast? ')' inner).map String.ofList

end ConfigSweep
