import ConfigSweep.Proofs.Split

/-!
# Keys and paths of axes

An axis stands under the key that joins the tokens of its path. The key leads back to the path from
either side as far as no token of the path overlaps a separator beside it, and two axes have
different keys when that holds of both of them on one side. Refusing keys that hold the separator is
not enough for either.
-/

namespace ConfigSweep.Tree

/-- No token of a location holds the separator. -/
theorem SplitOf.whole {t : Tree} {split : AxisSplit} (splitOf : SplitOf t split)
    (plain : t.isAxis = false) {path : Path} {declaration : Mapping Tree}
    (member : (path, declaration) ∈ t.axisLocations) :
    ∀ step ∈ path, ¬ AxisKey.separator.toList <:+: step.token.toList :=
  forall_token_of_mem_axisLocations plain splitOf.keys
    (fun position => (Position.cuttable_token position).whole) member

/-- The axes of a tree come in document order, each under the joined tokens of its path. A key is
cut from the left into the tokens of the path exactly when all of them but the last end clear, and
from the right exactly when all but the first start clear. Axes at different paths that share a key
have a token that does not end clear and a token that does not start clear. -/
theorem splitAxes_keys (t : Tree) (split : AxisSplit) (distinct : t.Distinct)
    (accepted : t.splitAxes = .ok split) :
    List.Forall₂ (fun axis l => axis.key = .ofSteps l.1 ∧ axis.declaration = l.2 ∧
        (axis.key.tokens = l.1.map Step.token ↔ AxisKey.LeftClear l.1) ∧
        (axis.key.tokensFromRight = (l.1.map Step.token).reverse ↔ AxisKey.RightClear l.1))
      split.axes t.axisLocations ∧
    ∀ l ∈ t.axisLocations, ∀ m ∈ t.axisLocations, l.1 ≠ m.1 →
      AxisKey.ofSteps l.1 = AxisKey.ofSteps m.1 →
        ¬ (AxisKey.LeftClear l.1 ∧ AxisKey.LeftClear m.1) ∧
        ¬ (AxisKey.RightClear l.1 ∧ AxisKey.RightClear m.1) := by
  obtain ⟨plain, splitOf⟩ := splitAxes_spec accepted
  have below : ∀ l ∈ t.axisLocations, l.1 ≠ [] := fun l member =>
    ne_nil_of_mem_axisLocations (show (l.1, l.2) ∈ t.axisLocations from member)
  have whole : ∀ l ∈ t.axisLocations, ∀ step ∈ l.1,
      ¬ AxisKey.separator.toList <:+: step.token.toList := fun l member =>
    splitOf.whole plain (show (l.1, l.2) ∈ t.axisLocations from member)
  constructor
  · rw [splitOf.axes, List.forall₂_map_left_iff, List.forall₂_same]
    intro l member
    exact ⟨rfl, rfl, AxisKey.tokens_ofSteps_iff (below l member) (whole l member),
      AxisKey.tokensFromRight_ofSteps_iff (below l member) (whole l member)⟩
  · intro l first m second different shared
    have apart : l.1.map Step.token ≠ m.1.map Step.token := fun same =>
      different (location_tokens_inj distinct first second same)
    constructor
    · rintro ⟨clearL, clearM⟩
      have tokensL := (AxisKey.tokens_ofSteps_iff (below l first) (whole l first)).mpr clearL
      have tokensM := (AxisKey.tokens_ofSteps_iff (below m second) (whole m second)).mpr clearM
      exact apart (tokensL.symm.trans ((congrArg AxisKey.tokens shared).trans tokensM))
    · rintro ⟨clearL, clearM⟩
      have tokensL :=
        (AxisKey.tokensFromRight_ofSteps_iff (below l first) (whole l first)).mpr clearL
      have tokensM :=
        (AxisKey.tokensFromRight_ofSteps_iff (below m second) (whole m second)).mpr clearM
      have same := tokensL.symm.trans ((congrArg AxisKey.tokensFromRight shared).trans tokensM)
      exact apart (List.reverse_injective same)

section Overlap

/-- Two axes whose keys overlap the separator from either side. -/
def overlapParameters : Tree :=
  .mapping [
    ("a", .mapping [("SEP__b", .mapping [("sweep", .bool true), ("values", .list [.int 1])])]),
    ("a__SEP", .mapping [("b", .mapping [("sweep", .bool true), ("values", .list [.int 2])])])]

def overlapKey : AxisKey := ⟨"a__SEP__SEP__b"⟩

def overlapSplit : AxisSplit where
  axes := [⟨overlapKey, [("values", .list [.int 1])]⟩, ⟨overlapKey, [("values", .list [.int 2])]⟩]
  remainder := .mapping [("a", .mapping []), ("a__SEP", .mapping [])]

/-- Both axes stand under one key, which leads to the first from the left and to the second from
the right. -/
theorem splitAxes_keys_overlap :
    overlapParameters.Distinct ∧ overlapParameters.splitAxes = .ok overlapSplit ∧
    overlapParameters.axisLocations.map Prod.fst
      = [[.key "a", .key "SEP__b"], [.key "a__SEP", .key "b"]] ∧
    overlapKey.tokens = ["a", "SEP__b"] ∧ overlapKey.tokens ≠ ["a__SEP", "b"] ∧
    overlapKey.tokensFromRight ≠ ["SEP__b", "a"] ∧ overlapKey.tokensFromRight = ["b", "a__SEP"] := by
  obtain ⟨keys, -⟩ := splitAxes_keys overlapParameters overlapSplit (by decide) rfl
  obtain ⟨⟨-, -, leftA, rightA⟩, later⟩ := List.forall₂_cons.mp keys
  obtain ⟨⟨-, -, leftB, rightB⟩, -⟩ := List.forall₂_cons.mp later
  refine ⟨by decide, rfl, rfl, leftA.mpr (by decide), fun cut => ?_, fun cut => ?_,
    rightB.mpr (by decide)⟩
  · exact absurd (leftB.mp cut) (by decide)
  · exact absurd (rightA.mp cut) (by decide)

end Overlap

end ConfigSweep.Tree
