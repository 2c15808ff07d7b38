import ConfigSweep.Toml.Scalar
import ConfigSweep.Toml.Section
import ConfigSweep.Toml.Token

/-!
# Reading trees from TOML

A document is a sequence of headers and of values under dotted keys, one a line. Lists and inline
tables may span lines and end with a comma; a line may break anywhere in them but inside a key or
a bare value.
-/

namespace ConfigSweep.Toml

def Token.isBlank : Token → Bool
  | .blank _ => true
  | _ => false

def Token.isGap : Token → Bool
  | .blank _ => true
  | .newline => true
  | _ => false

def skipBlanks (tokens : List Token) : List Token :=
  tokens.dropWhile Token.isBlank

def skipGaps (tokens : List Token) : List Token :=
  tokens.dropWhile Token.isGap

/-- Takes a token that must come next, blanks aside. -/
def take? (token : Token) (tokens : List Token) : Option (List Token) :=
  match skipBlanks tokens with
  | t :: rest => if t = token then some rest else none
  | [] => none

def isKeyChar (c : Char) : Bool :=
  c.isAlphanum || c == '_' || c == '-'

/-- One part of a key: bare, or a string on one line. -/
def keyPart? : Token → Option String
  | .bare chars => if chars.all isKeyChar then some (String.ofList chars) else none
  | .text value false => some value
  | _ => none

/-- The most parts of a dotted key. -/
def keyLimit : Nat := 80

mutual

/-- Takes a dotted key, whose parts before are given, the last first. -/
def keyFrom? (before : List String) : List Token → Option (Key × List Token)
  | .blank _ :: rest => keyFrom? before rest
  | token :: rest =>
    if before.length < keyLimit then
      (keyPart? token).bind fun part => afterPart? before part rest
    else none
  | [] => none

/-- Takes what follows a part of a key. -/
def afterPart? (before : List String) (part : String) : List Token → Option (Key × List Token)
  | .blank _ :: rest => afterPart? before part rest
  | .dot :: rest => keyFrom? (part :: before) rest
  | tokens => some (⟨before.reverse, part⟩, tokens)

end

/-- Takes what stands bare without a gap. -/
def bareChars : List Token → List Char × List Token
  | .bare chars :: rest =>
    let (more, rest) := bareChars rest
    (chars ++ more, rest)
  | .dot :: rest =>
    let (more, rest) := bareChars rest
    ('.' :: more, rest)
  | tokens => ([], tokens)

/-- Takes a bare value; a time may follow a date behind one blank. -/
def bareValue? (tokens : List Token) : Option (Tree × List Token) := do
  let (chars, rest) := bareChars tokens
  match date? chars, rest with
  | some (_, []), .blank ' ' :: .bare (d :: time) :: rest =>
    if d.isDigit then
      let (time, rest) := bareChars (.bare (d :: time) :: rest)
      return (← scalar? (chars ++ ' ' :: time), rest)
    else return (← scalar? chars, .blank ' ' :: .bare (d :: time) :: rest)
  | _, _ => return (← scalar? chars, rest)

/-- The deepest nesting of lists and inline tables. -/
def depthLimit : Nat := 80

mutual

/-- Takes a value inside `depth` lists and inline tables. The fuel bounds the steps. -/
def value? : Nat → Nat → List Token → Option (Tree × List Token)
  | 0, _, _ => none
  | fuel + 1, depth, tokens =>
    match skipBlanks tokens with
    | .text value _ :: rest => some (.str value, rest)
    | .openList :: rest =>
      if depth < depthLimit then do
        let (items, rest) ← items? fuel (depth + 1) rest
        return (.list items, rest)
      else none
    | .openTable :: rest =>
      if depth < depthLimit then do
        let (entries, rest) ← inlineEntries? fuel (depth + 1) [] rest
        return (.mapping (entryTrees entries), rest)
      else none
    | tokens => bareValue? tokens

/-- Takes the items of a list and its end. -/
def items? : Nat → Nat → List Token → Option (List Tree × List Token)
  | 0, _, _ => none
  | fuel + 1, depth, tokens =>
    match skipGaps tokens with
    | .closeList :: rest => some ([], rest)
    | tokens => do
      let (item, rest) ← value? fuel depth tokens
      match skipGaps rest with
      | .comma :: rest => do
        let (items, rest) ← items? fuel depth rest
        return (item :: items, rest)
      | .closeList :: rest => return ([item], rest)
      | _ => none

/-- Takes the entries of an inline table and its end. Lines may break on both sides of the equals
sign. -/
def inlineEntries? : Nat → Nat → Mapping Node → List Token → Option (Mapping Node × List Token)
  | 0, _, _, _ => none
  | fuel + 1, depth, entries, tokens =>
    match skipGaps tokens with
    | .closeTable :: rest => some (entries, rest)
    | tokens => do
      let (key, rest) ← keyFrom? [] tokens
      let rest ← take? .equals (skipGaps rest)
      let (value, rest) ← value? fuel depth (skipGaps rest)
      let entries ← insertNew? key (.value value) entries
      match skipGaps rest with
      | .comma :: rest => inlineEntries? fuel depth entries rest
      | .closeTable :: rest => return (entries, rest)
      | _ => none

end

/-- Takes the end of a line or of the document. -/
def lineEnd? (tokens : List Token) : Option (List Token) :=
  match skipBlanks tokens with
  | [] => some []
  | .newline :: rest => some rest
  | _ => none

/-- Takes a header behind its first bracket. -/
def header? : List Token → Option (Header × List Token)
  | .openList :: rest => do
    let (key, rest) ← keyFrom? [] rest
    match rest with
    | .closeList :: .closeList :: rest => return (⟨key, true⟩, rest)
    | _ => none
  | tokens => do
    let (key, rest) ← keyFrom? [] tokens
    return (⟨key, false⟩, ← take? .closeList rest)

/-- Takes one header, or one value under its key, and the end of its line. -/
def statement? (s : Sections) : List Token → Option (Sections × List Token)
  | .openList :: tokens => do
    let (header, rest) ← header? tokens
    return (← s.startHeader? header, ← lineEnd? rest)
  | tokens => do
    let (key, rest) ← keyFrom? [] tokens
    let rest ← take? .equals rest
    let (value, rest) ← value? (2 * rest.length + 2) 0 rest
    return (← s.insertValue? key value, ← lineEnd? rest)

/-- Takes all statements; every one has a token at least. -/
def statements? : Nat → Sections → List Token → Option Sections
  | 0, _, _ => none
  | fuel + 1, s, tokens =>
    match skipGaps tokens with
    | [] => some s
    | tokens => do
      let (s, rest) ← statement? s tokens
      statements? fuel s rest

/-- Reads a whole document as a mapping. -/
def read? (text : String) : Option Tree := do
  let tokens ← tokens? text
  let s ← statements? (tokens.length + 1) {} tokens
  s.finish?

end ConfigSweep.Toml
