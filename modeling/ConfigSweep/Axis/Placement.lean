import ConfigSweep.Failure

/-!
# Trees from values at axis keys

Values are placed one after the other where their keys lead, through mappings that are made as
needed. Position tokens stay keys.
-/

namespace ConfigSweep

namespace Mapping

/-- Puts a value where the tokens lead, none when that is through a value that is no mapping. -/
def place? (value : Tree) : List String → Mapping Tree → Option (Mapping Tree)
  | [], entries => some entries
  | [token], entries => some (entries.insert token value)
  | token :: next :: rest, entries =>
    match entries.get? token with
    | none =>
      (place? value (next :: rest) []).map fun below => entries.insert token (.mapping below)
    | some (.mapping below) =>
      (place? value (next :: rest) below).map fun below => entries.insert token (.mapping below)
    | some _ => none

end Mapping

namespace Tree

/-- Places the values in turn, starting from given entries. -/
def placeAll : List (AxisKey × Tree) → Mapping Tree → Outcome Tree
  | [], entries => .ok (.mapping entries)
  | (key, value) :: rest, entries =>
    match entries.place? value key.tokens with
    | some entries => placeAll rest entries
    | none => fail (.malformedAxis key.dotted "flat key runs through a leaf value")

/-- The tree of values at axis keys. -/
def ofAxisValues (values : List (AxisKey × Tree)) : Outcome Tree :=
  placeAll values []

end Tree

end ConfigSweep
