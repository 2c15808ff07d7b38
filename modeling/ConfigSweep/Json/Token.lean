import ConfigSweep.Json.Number

/-!
# JSON tokens

The text is read one character at a time by a machine that stands between tokens or inside one.
-/

namespace ConfigSweep.Json

inductive Token where
  | openMapping
  | closeMapping
  | openList
  | closeList
  | colon
  | comma
  | text (value : String)
  | leaf (value : Tree)

/-- Where the machine stands behind a backslash. -/
inductive Escape where
  | none
  | letter
  | unicode (count value : Nat)

/-- A text that is being read: its characters so far, the last first, and the leading half of a
pair of surrogates that waits for the other. -/
structure OpenText where
  chars : List Char := []
  lead : Option Nat := none
  escape : Escape := .none

namespace OpenText

def push (t : OpenText) (c : Char) : OpenText :=
  ⟨c :: t.chars, none, .none⟩

/-- The character that a letter behind a backslash stands for. -/
def unletter? : Char → Option Char
  | '"' => some '"'
  | '\\' => some '\\'
  | '/' => some '/'
  | 'b' => some '\x08'
  | 'f' => some '\x0c'
  | 'n' => some '\n'
  | 'r' => some '\r'
  | 't' => some '\t'
  | _ => none

def hexValue? (c : Char) : Option Nat :=
  if c.isDigit then some (c.toNat - 48)
  else if 'a' ≤ c ∧ c ≤ 'f' then some (c.toNat - 87)
  else if 'A' ≤ c ∧ c ≤ 'F' then some (c.toNat - 55)
  else none

def isLead (unit : Nat) : Bool :=
  0xD800 ≤ unit && unit < 0xDC00

def isTrail (unit : Nat) : Bool :=
  0xDC00 ≤ unit && unit < 0xE000

/-- Takes a unit of 16 bits; surrogates come in pairs. -/
def pushUnit? (t : OpenText) (unit : Nat) : Option OpenText :=
  match t.lead with
  | some lead =>
    if isTrail unit then
      some (t.push (Char.ofNat (0x10000 + (lead - 0xD800) * 0x400 + (unit - 0xDC00))))
    else none
  | none =>
    if isLead unit then some { t with lead := some unit, escape := .none }
    else if isTrail unit then none
    else some (t.push (Char.ofNat unit))

/-- Takes a character other than the closing quote. -/
def step? (t : OpenText) (c : Char) : Option OpenText :=
  match t.escape with
  | .unicode count value => do
    let digit ← hexValue? c
    let value := value * 16 + digit
    if count = 3 then t.pushUnit? value else some { t with escape := .unicode (count + 1) value }
  | .letter =>
    if c = 'u' then some { t with escape := .unicode 0 0 }
    else if t.lead.isSome then none
    else (unletter? c).map t.push
  | .none =>
    if c = '\\' then some { t with escape := .letter }
    else if t.lead.isSome || c.toNat < 0x20 then none
    else some (t.push c)

/-- The closing quote ends the text unless it stands behind a backslash or half a pair is open. -/
def closes (t : OpenText) (c : Char) : Bool :=
  match t.escape with
  | .none => c == '"' && t.lead.isNone
  | _ => false

end OpenText

/-- The token that is being read. -/
inductive Pending where
  | nothing
  | word (letters : List Char)
  | number (chars : List Char)
  | text (read : OpenText)

/-- The machine: the token being read and those read before it, the last first. -/
structure Scanner where
  pending : Pending := .nothing
  tokens : List Token := []

namespace Scanner

def push (s : Scanner) (t : Token) : Scanner :=
  ⟨.nothing, t :: s.tokens⟩

def isNumberChar (c : Char) : Bool :=
  c.isDigit || c == '-' || c == '+' || c == '.' || c == 'e' || c == 'E'

/-- Takes a character that stands between tokens or starts one. -/
def start? (s : Scanner) : Char → Option Scanner
  | ' ' | '\n' | '\t' | '\r' => some s
  | '\x7b' => some (s.push .openMapping)
  | '\x7d' => some (s.push .closeMapping)
  | '[' => some (s.push .openList)
  | ']' => some (s.push .closeList)
  | ':' => some (s.push .colon)
  | ',' => some (s.push .comma)
  | '"' => some { s with pending := .text {} }
  | c =>
    if c.isDigit || c == '-' then some { s with pending := .number [c] }
    else if c.isAlpha then some { s with pending := .word [c] }
    else none

def word? (letters : List Char) : Option Tree :=
  match String.ofList letters with
  | "null" => some .null
  | "true" => some (.bool true)
  | "false" => some (.bool false)
  | _ => none

/-- Ends a word or a number; a text does not end without its quote. -/
def finish? (s : Scanner) : Option Scanner :=
  match s.pending with
  | .nothing => some s
  | .word letters => (word? letters.reverse).map fun t => s.push (.leaf t)
  | .number chars => (number? chars.reverse).map fun t => s.push (.leaf t)
  | .text _ => none

def step? (s : Scanner) (c : Char) : Option Scanner :=
  match s.pending with
  | .nothing => s.start? c
  | .word letters =>
    if c.isAlpha then some { s with pending := .word (c :: letters) }
    else s.finish?.bind (start? · c)
  | .number chars =>
    if isNumberChar c then some { s with pending := .number (c :: chars) }
    else s.finish?.bind (start? · c)
  | .text read =>
    if read.closes c then some (s.push (.text (String.ofList read.chars.reverse)))
    else (read.step? c).map fun t => { s with pending := .text t }

end Scanner

/-- The tokens of a text, none where it is not made of tokens. -/
def tokens? (text : String) : Option (List Token) := do
  let s ← text.toList.foldlM Scanner.step? {}
  let s ← s.finish?
  return s.tokens.reverse

end ConfigSweep.Json
