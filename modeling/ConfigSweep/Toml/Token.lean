import ConfigSweep.Toml.Text

/-!
# TOML tokens

Blanks and line breaks are tokens, comments are not. What stands bare is cut at points, which
separate the parts of a key as well as those of a number.
-/

namespace ConfigSweep.Toml

inductive Token where
  | blank (c : Char)
  | newline
  | dot
  | comma
  | equals
  | openList
  | closeList
  | openTable
  | closeTable
  | bare (chars : List Char)
  | text (value : String) (manyLines : Bool)
  deriving DecidableEq, Repr

/-- The token that is being read. -/
inductive Pending where
  | nothing
  | bare (chars : List Char)
  | comment
  /-- Behind a carriage return between tokens. -/
  | carriage
  /-- Behind so many quotes that open a string. -/
  | opening (literal : Bool) (count : Nat)
  | text (read : OpenText)

/-- The machine: the token being read and those read before it, the last first. -/
structure Scanner where
  pending : Pending := .nothing
  tokens : List Token := []

namespace Scanner

def push (s : Scanner) (t : Token) : Scanner :=
  ⟨.nothing, t :: s.tokens⟩

def isBareChar (c : Char) : Bool :=
  c.isAlphanum || c == '_' || c == '-' || c == '+' || c == ':'

/-- Takes a character that stands between tokens or starts one. -/
def start? (s : Scanner) : Char → Option Scanner
  | ' ' => some (s.push (.blank ' '))
  | '\t' => some (s.push (.blank '\t'))
  | '\n' => some (s.push .newline)
  | '\r' => some { s with pending := .carriage }
  | '#' => some { s with pending := .comment }
  | '.' => some (s.push .dot)
  | ',' => some (s.push .comma)
  | '=' => some (s.push .equals)
  | '[' => some (s.push .openList)
  | ']' => some (s.push .closeList)
  | '\x7b' => some (s.push .openTable)
  | '\x7d' => some (s.push .closeTable)
  | '"' => some { s with pending := .opening false 1 }
  | '\'' => some { s with pending := .opening true 1 }
  | c => if isBareChar c then some { s with pending := .bare [c] } else none

def takeText (s : Scanner) (manyLines : Bool) (c : Char) : TextStep → Option Scanner
  | .more t => some { s with pending := .text t }
  | .closed value => some (s.push (.text value manyLines))
  | .closedBefore value => (s.push (.text value manyLines)).start? c

/-- Takes a character behind the first quotes of a string. -/
def opening? (s : Scanner) (literal : Bool) (count : Nat) (c : Char) : Option Scanner :=
  let line : OpenText := { literal, manyLines := false }
  if c = line.quote then
    if count = 1 then some { s with pending := .opening literal 2 }
    else some { s with pending := .text { literal, manyLines := true, mode := .fresh } }
  else if count = 1 then (line.step? c).bind (s.takeText false c)
  else (s.push (.text "" false)).start? c

def step? (s : Scanner) (c : Char) : Option Scanner :=
  match s.pending with
  | .nothing => s.start? c
  | .bare chars =>
    if isBareChar c then some { s with pending := .bare (c :: chars) }
    else (s.push (.bare chars.reverse)).start? c
  | .comment =>
    if c = '\n' then some (s.push .newline)
    else if c = '\r' then some { s with pending := .carriage }
    else if OpenText.isForbidden c then none
    else some s
  | .carriage => if c = '\n' then some (s.push .newline) else none
  | .opening literal count => s.opening? literal count c
  | .text t => (t.step? c).bind (s.takeText t.manyLines c)

/-- Ends the last token with the text. -/
def finish? (s : Scanner) : Option Scanner :=
  match s.pending with
  | .nothing => some s
  | .bare chars => some (s.push (.bare chars.reverse))
  | .comment => some { s with pending := .nothing }
  | .carriage => none
  | .opening _ count => if count = 2 then some (s.push (.text "" false)) else none
  | .text t => t.finish?.map fun value => s.push (.text value t.manyLines)

end Scanner

/-- The tokens of a text, none where it is not made of tokens; a byte order mark in front is no
part of it. -/
def tokens? (text : String) : Option (List Token) := do
  let chars := match text.toList with
    | '\uFEFF' :: rest => rest
    | chars => chars
  let s ← chars.foldlM Scanner.step? {}
  let s ← s.finish?
  return s.tokens.reverse

end ConfigSweep.Toml
