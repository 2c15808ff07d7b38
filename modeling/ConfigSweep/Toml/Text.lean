import ConfigSweep.Json.Token

/-!
# TOML strings

A string is read one character at a time. Basic strings know escapes, literal ones do not; both may
span lines between triple quotes, where up to two quotes in a row belong to the text.
-/

namespace ConfigSweep.Toml

/-- Where the reading of a string stands. -/
inductive TextMode where
  | plain
  /-- Right behind the opening of a string of several lines: a line break here is dropped. -/
  | fresh
  /-- Behind so many quotes in a row. -/
  | quotes (count : Nat)
  /-- Behind a carriage return, which a line feed must follow. -/
  | carriage (kept : Bool)
  | escape
  /-- Inside a numeric escape: the digits to come and the value of those before. -/
  | code (left value : Nat)
  /-- Behind a backslash at the end of a line: blanks and line breaks are dropped. -/
  | fold (brokenLine : Bool)
  | foldCarriage

structure OpenText where
  literal : Bool
  manyLines : Bool
  chars : List Char := []
  mode : TextMode := .plain

/-- What a character does to an open string. -/
inductive TextStep where
  | more (t : OpenText)
  | closed (value : String)
  /-- The string ended before the character. -/
  | closedBefore (value : String)

namespace OpenText

def quote (t : OpenText) : Char :=
  if t.literal then '\'' else '"'

def push (t : OpenText) (c : Char) : OpenText :=
  { t with chars := c :: t.chars, mode := .plain }

def value (t : OpenText) : String :=
  String.ofList t.chars.reverse

/-- The string whose last quotes beyond the closing three belong to the text. -/
def closedValue (t : OpenText) (quotes : Nat) : String :=
  { t with chars := List.replicate (quotes - 3) t.quote ++ t.chars }.value

/-- Controls other than the tab do not stand in strings. -/
def isForbidden (c : Char) : Bool :=
  (c.toNat < 0x20 && c != '\t') || c.toNat == 0x7F

/-- The character that a letter behind a backslash stands for. -/
def unletter? : Char → Option Char
  | 'b' => some '\x08'
  | 't' => some '\t'
  | 'n' => some '\n'
  | 'f' => some '\x0c'
  | 'r' => some '\r'
  | 'e' => some '\x1b'
  | '"' => some '"'
  | '\\' => some '\\'
  | _ => none

/-- The count of digits behind the letter of a numeric escape. -/
def codeLength? : Char → Option Nat
  | 'x' => some 2
  | 'u' => some 4
  | 'U' => some 8
  | _ => none

def isScalarValue (n : Nat) : Bool :=
  n < 0xD800 || (0xE000 ≤ n && n < 0x110000)

/-- Takes a character of the body. -/
def body? (t : OpenText) (c : Char) : Option TextStep :=
  if c = t.quote then
    if t.manyLines then some (.more { t with mode := .quotes 1 }) else some (.closed t.value)
  else if c = '\\' ∧ t.literal = false then some (.more { t with mode := .escape })
  else if c = '\n' ∧ t.manyLines then some (.more (t.push c))
  else if c = '\r' ∧ t.manyLines then some (.more { t with mode := .carriage true })
  else if isForbidden c then none
  else some (.more (t.push c))

/-- Takes the character behind a backslash. -/
def escape? (t : OpenText) (c : Char) : Option TextStep :=
  match unletter? c, codeLength? c with
  | some meant, _ => some (.more (t.push meant))
  | none, some length => some (.more { t with mode := .code length 0 })
  | none, none =>
    if t.manyLines = false then none
    else if c = ' ' ∨ c = '\t' then some (.more { t with mode := .fold false })
    else if c = '\n' then some (.more { t with mode := .fold true })
    else if c = '\r' then some (.more { t with mode := .foldCarriage })
    else none

/-- Takes one digit of a numeric escape, which ends with the last one. -/
def code? (t : OpenText) (left value : Nat) (c : Char) : Option TextStep := do
  let digit ← Json.OpenText.hexValue? c
  let value := value * 16 + digit
  if 1 < left then some (.more { t with mode := .code (left - 1) value })
  else if isScalarValue value then some (.more (t.push (Char.ofNat value)))
  else none

def step? (t : OpenText) (c : Char) : Option TextStep :=
  match t.mode with
  | .plain => t.body? c
  | .fresh =>
    if c = '\n' then some (.more { t with mode := .plain })
    else if c = '\r' then some (.more { t with mode := .carriage false })
    else t.body? c
  | .carriage kept =>
    if c ≠ '\n' then none
    else if kept then some (.more ((t.push '\r').push '\n'))
    else some (.more { t with mode := .plain })
  | .quotes count =>
    if c = t.quote then
      if count = 4 then some (.closed (t.closedValue 5))
      else some (.more { t with mode := .quotes (count + 1) })
    else if 3 ≤ count then some (.closedBefore (t.closedValue count))
    else { t with chars := List.replicate count t.quote ++ t.chars }.body? c
  | .escape => t.escape? c
  | .code left value => t.code? left value c
  | .fold brokenLine =>
    if c = ' ' ∨ c = '\t' then some (.more t)
    else if c = '\n' then some (.more { t with mode := .fold true })
    else if c = '\r' then some (.more { t with mode := .foldCarriage })
    else if brokenLine then t.body? c
    else none
  | .foldCarriage => if c = '\n' then some (.more { t with mode := .fold true }) else none

/-- The string, if it may end with the text around it. -/
def finish? (t : OpenText) : Option String :=
  match t.mode with
  | .quotes count => if 3 ≤ count then some (t.closedValue count) else none
  | _ => none

end OpenText

end ConfigSweep.Toml
