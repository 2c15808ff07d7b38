import ConfigSweep.Json.Token

/-!
# Reading trees from JSON

The tokens are taken one at a time; the containers that are still open stand on a stack of at most
`depthLimit`. A key that a mapping carries twice keeps its first place and its last value.
-/

namespace ConfigSweep.Json

/-- A container that is still open: a list with its items so far, the last first, or a mapping
with its entries so far and the key whose value is being read. -/
inductive Frame where
  | list (items : List Tree)
  | mapping (entries : Mapping Tree) (key : String)

/-- What may come next. -/
inductive Expected where
  | value
  | firstItem
  | firstKey (entries : Mapping Tree)
  | key (entries : Mapping Tree)
  | colon (entries : Mapping Tree) (key : String)
  | rest (read : Tree)

structure Assembly where
  expected : Expected := .value
  stack : List Frame := []

/-- The deepest nesting of containers. -/
def depthLimit : Nat := 127

namespace Assembly

def value? (a : Assembly) : Token → Option Assembly
  | .leaf t => some { a with expected := .rest t }
  | .text s => some { a with expected := .rest (.str s) }
  | .openList =>
    if a.stack.length < depthLimit then some { a with expected := .firstItem } else none
  | .openMapping =>
    if a.stack.length < depthLimit then some { a with expected := .firstKey [] } else none
  | _ => none

/-- Takes the token behind a finished value. -/
def rest? (a : Assembly) (read : Tree) : Token → Option Assembly
  | .comma =>
    match a.stack with
    | .list items :: below => some ⟨.value, .list (read :: items) :: below⟩
    | .mapping entries key :: below => some ⟨.key (entries.insert key read), below⟩
    | [] => none
  | .closeList =>
    match a.stack with
    | .list items :: below => some ⟨.rest (.list (read :: items).reverse), below⟩
    | _ => none
  | .closeMapping =>
    match a.stack with
    | .mapping entries key :: below => some ⟨.rest (.mapping (entries.insert key read)), below⟩
    | _ => none
  | _ => none

def step? (a : Assembly) (token : Token) : Option Assembly :=
  match a.expected, token with
  | .value, token => a.value? token
  | .firstItem, .closeList => some { a with expected := .rest (.list []) }
  | .firstItem, token => ({ a with stack := .list [] :: a.stack } : Assembly).value? token
  | .firstKey _, .closeMapping => some { a with expected := .rest (.mapping []) }
  | .firstKey entries, .text key => some { a with expected := .colon entries key }
  | .key entries, .text key => some { a with expected := .colon entries key }
  | .colon entries key, .colon => some ⟨.value, .mapping entries key :: a.stack⟩
  | .rest read, token => a.rest? read token
  | _, _ => none

/-- The finished tree, if nothing is open. -/
def tree? (a : Assembly) : Option Tree :=
  match a.expected, a.stack with
  | .rest read, [] => some read
  | _, _ => none

end Assembly

/-- Reads a whole text as one tree. -/
def read? (text : String) : Option Tree := do
  let tokens ← tokens? text
  let a ← tokens.foldlM Assembly.step? {}
  a.tree?

/-- Goes on to the bracket that opens a container too deep, and counts the bytes up to its end. The
flag says whether a text is open. -/
def tooDeepFrom? : Bool → Nat → Nat → List Char → Option Nat
  | _, _, _, [] => none
  | true, depth, bytes, '\\' :: c :: rest =>
    tooDeepFrom? true depth (bytes + 1 + c.utf8Size) rest
  | true, depth, bytes, c :: rest =>
    tooDeepFrom? (c != '"') depth (bytes + c.utf8Size) rest
  | false, depth, bytes, c :: rest =>
    if c = '[' ∨ c = '\x7b' then
      if depth < depthLimit then tooDeepFrom? false (depth + 1) (bytes + 1) rest
      else some (bytes + 1)
    else if c = ']' ∨ c = '\x7d' then tooDeepFrom? false (depth - 1) (bytes + 1) rest
    else tooDeepFrom? (c == '"') depth (bytes + c.utf8Size) rest

/-- The column, in bytes from one, of the first bracket that opens a container too deep in a text
of one line. -/
def tooDeepAt? (text : String) : Option Nat :=
  tooDeepFrom? false 0 0 text.toList

end ConfigSweep.Json
