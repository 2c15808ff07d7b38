import ConfigSweep.Number.Layout
import ConfigSweep.Tree

/-!
# JSON texts of trees

`Tree.compact` writes a tree without blanks, `Tree.pretty` with one entry a line and two spaces a
level; empty containers stay closed in both.
-/

namespace ConfigSweep.Json

/-- The letter that stands for a character behind a backslash. -/
def letter? : Char → Option Char
  | '"' => some '"'
  | '\\' => some '\\'
  | '\x08' => some 'b'
  | '\x0c' => some 'f'
  | '\n' => some 'n'
  | '\r' => some 'r'
  | '\t' => some 't'
  | _ => none

def hexDigit (n : Nat) : Char :=
  if n < 10 then Char.ofNat (48 + n) else Char.ofNat (87 + n)

/-- Quotes, backslashes and the characters below U+0020 are escaped, all else stands for itself. -/
def escape (c : Char) : List Char :=
  match letter? c with
  | some l => ['\\', l]
  | none =>
    if c.toNat < 0x20 then ['\\', 'u', '0', '0', hexDigit (c.toNat / 16), hexDigit (c.toNat % 16)]
    else [c]

def quote (text : String) : String :=
  String.ofList ('"' :: text.toList.flatMap escape ++ ['"'])

end ConfigSweep.Json

namespace ConfigSweep.Tree

open Json

def leafText : Tree → String
  | .null => "null"
  | .bool true => "true"
  | .bool false => "false"
  | .int n => toString n
  | .float x => x.text
  | .str text => quote text
  | .list _ => "[]"
  | .mapping _ => "\x7b\x7d"

mutual

def compact : Tree → String
  | .list items => "[" ++ compactItems items ++ "]"
  | .mapping entries => "\x7b" ++ compactEntries entries ++ "\x7d"
  | leaf => leaf.leafText

def compactItems : List Tree → String
  | [] => ""
  | [t] => t.compact
  | t :: u :: rest => t.compact ++ "," ++ compactItems (u :: rest)

def compactEntries : List (String × Tree) → String
  | [] => ""
  | [(key, t)] => quote key ++ ":" ++ t.compact
  | (key, t) :: e :: rest => quote key ++ ":" ++ t.compact ++ "," ++ compactEntries (e :: rest)

end

def margin (level : Nat) : String :=
  "\n" ++ String.ofList (List.replicate (2 * level) ' ')

mutual

def prettyAt : Tree → Nat → String
  | .list [], _ => "[]"
  | .list (t :: ts), level => "[" ++ prettyItems (t :: ts) (level + 1) ++ margin level ++ "]"
  | .mapping [], _ => "\x7b\x7d"
  | .mapping (e :: es), level =>
    "\x7b" ++ prettyEntries (e :: es) (level + 1) ++ margin level ++ "\x7d"
  | leaf, _ => leaf.leafText

def prettyItems : List Tree → Nat → String
  | [], _ => ""
  | [t], level => margin level ++ t.prettyAt level
  | t :: u :: rest, level =>
    margin level ++ t.prettyAt level ++ "," ++ prettyItems (u :: rest) level

def prettyEntries : List (String × Tree) → Nat → String
  | [], _ => ""
  | [(key, t)], level => margin level ++ quote key ++ ": " ++ t.prettyAt level
  | (key, t) :: e :: rest, level =>
    margin level ++ quote key ++ ": " ++ t.prettyAt level ++ "," ++ prettyEntries (e :: rest) level

end

def pretty (t : Tree) : String :=
  t.prettyAt 0

end ConfigSweep.Tree
