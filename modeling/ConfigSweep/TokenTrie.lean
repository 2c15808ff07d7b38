import ConfigSweep.Table

/-!
# Counting tries

A trie takes in lists of tokens. Each node counts the lists that pass through it, so that the
shortest beginning of a list that no other list shares ends at the first node with the count one.
-/

namespace ConfigSweep

structure TokenTrie where
  /-- The number of lists that pass through the node. -/
  count : Nat
  children : Table TokenTrie

namespace TokenTrie

def empty : TokenTrie := ⟨0, .empty⟩

/-- The node below a token, an empty one if there is none. -/
def childAt (token : String) (trie : TokenTrie) : TokenTrie :=
  (trie.children.get? token).getD empty

/-- Takes in a list, which passes through a node for each of its tokens. -/
def add : List String → TokenTrie → TokenTrie
  | [], trie => trie
  | token :: rest, trie =>
    let child := trie.childAt token
    { trie with
      children := trie.children.insert token (add rest { child with count := child.count + 1 }) }

def ofLists (lists : List (List String)) : TokenTrie :=
  lists.foldl (fun trie tokens => trie.add tokens) empty

/-- The shortest beginning of the tokens that only one list of the trie has, or all tokens. -/
def unsharedRun : List String → TokenTrie → List String
  | [], _ => []
  | token :: rest, trie =>
    match trie.children.get? token with
    | some child => if child.count = 1 then [token] else token :: unsharedRun rest child
    | none => [token]

end TokenTrie

end ConfigSweep
