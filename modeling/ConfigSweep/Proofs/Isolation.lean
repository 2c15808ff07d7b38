import ConfigSweep.Proofs.Framing
import ConfigSweep.Proofs.Locality

/-!
# Merging below a path

A merge at a node leaves everything that is not at or below the node as it was. If the patch asks
for no call on the root, then it makes of the node what it makes of the same tree as a root, and
fails for both or for neither.
-/

namespace ConfigSweep

namespace Tree

/-- The nodes have the same keys in the same order, or the same number of items. -/
def SameFrame : Tree → Tree → Prop
  | .mapping m, .mapping n => Mapping.keys m = Mapping.keys n
  | .list a, .list b => a.length = b.length
  | _, _ => False

/-- The trees differ only in what the path leads to. Values elsewhere are the same; nodes above it
have the same keys in the same order or the same number of items. -/
structure OnlyAt (path : Path) (before after : Tree) : Prop where
  elsewhere : ∀ other, ¬ path <+: other → ¬ other <+: path → after.get? other = before.get? other
  above : ∀ other, other <+: path → other ≠ path →
    ∃ t u, before.get? other = some t ∧ after.get? other = some u ∧ t.SameFrame u

section Steps

variable {t c : Tree} {step : Step}

theorem child?_setChild_other (there : t.child? step = some c) (value : Tree) {other : Step}
    (apart : other ≠ step) : (t.setChild step value).child? other = t.child? other := by
  cases t with
  | list items =>
    cases step with
    | key name => cases there
    | index position =>
      cases other with
      | key name => rfl
      | index position' =>
        have away : position ≠ position' := fun same => apart (congrArg Step.index same.symm)
        exact List.getElem?_set_ne away
  | mapping entries =>
    cases step with
    | index position => cases there
    | key name =>
      have has : Mapping.has name entries = true := Option.isSome_iff_exists.mpr ⟨c, there⟩
      rw [setChild, if_pos has]
      cases other with
      | index position => rfl
      | key name' =>
        have away : name' ≠ name := fun same => apart (congrArg Step.key same)
        rw [child?, Mapping.get?_insert, if_neg away]
        rfl
  | _ => cases there

theorem sameFrame_setChild (there : t.child? step = some c) (value : Tree) :
    t.SameFrame (t.setChild step value) := by
  cases t with
  | list items =>
    cases step with
    | key name => cases there
    | index position => exact List.length_set.symm
  | mapping entries =>
    cases step with
    | index position => cases there
    | key name =>
      have member : name ∈ Mapping.keys entries := Mapping.mem_keys_of_get? there
      have has : Mapping.has name entries = true := Option.isSome_iff_exists.mpr ⟨c, there⟩
      rw [setChild, if_pos has]
      show Mapping.keys entries = Mapping.keys (Mapping.insert name value entries)
      rw [Mapping.keys_insert, if_pos member]
  | _ => cases there

end Steps

section Writes

variable {root r value : Tree} {path : Path}

theorem get?_replace?_apart (done : replace? value path root = some r) {other : Path}
    (notBelow : ¬ path <+: other) (notAbove : ¬ other <+: path) :
    r.get? other = root.get? other := by
  induction path generalizing root r other with
  | nil => exact absurd List.nil_prefix notBelow
  | cons step rest ih =>
    obtain ⟨c, toChild, done⟩ := Option.bind_eq_some_iff.mp done
    obtain ⟨c', below, done⟩ := Option.bind_eq_some_iff.mp done
    obtain rfl := Option.some.inj done
    cases other with
    | nil => exact absurd List.nil_prefix notAbove
    | cons first more =>
      rw [get?, get?]
      by_cases same : first = step
      · subst same
        rw [List.cons_prefix_cons, not_and] at notBelow notAbove
        rw [child?_setChild toChild, toChild]
        exact ih below (notBelow rfl) (notAbove rfl)
      · rw [child?_setChild_other toChild c' same]

theorem sameFrame_replace? (done : replace? value path root = some r) {other : Path}
    (above : other <+: path) (apart : other ≠ path) :
    ∃ t u, root.get? other = some t ∧ r.get? other = some u ∧ t.SameFrame u := by
  induction path generalizing root r other with
  | nil => exact absurd (List.prefix_nil.mp above) apart
  | cons step rest ih =>
    obtain ⟨c, toChild, done⟩ := Option.bind_eq_some_iff.mp done
    obtain ⟨c', below, done⟩ := Option.bind_eq_some_iff.mp done
    obtain rfl := Option.some.inj done
    cases other with
    | nil => exact ⟨root, _, rfl, rfl, sameFrame_setChild toChild c'⟩
    | cons first more =>
      obtain ⟨rfl, above'⟩ := List.cons_prefix_cons.mp above
      have apart' : more ≠ rest := fun same => apart (congrArg (first :: ·) same)
      obtain ⟨t, u, there, there', frame⟩ := ih below above' apart'
      rw [get?, get?, child?_setChild toChild, toChild]
      exact ⟨t, u, there, there', frame⟩

theorem onlyAt_replace? (done : replace? value path root = some r) : root.OnlyAt path r where
  elsewhere _ notBelow notAbove := get?_replace?_apart done notBelow notAbove
  above _ above apart := sameFrame_replace? done above apart

end Writes

end Tree

namespace Merge

variable {evaluator : Evaluator} {focus : Focus} {root t : Tree}

/-- A local operation does to a node what it does to the same tree as a root. -/
theorem Local.alone {op : Focus → Tree → Outcome Tree} (isLocal : Local op)
    (there : root.get? focus.path = some t) (r : Tree) :
    op focus root = .ok r ↔
      ∃ u, op .root t = .ok u ∧ Tree.replace? u focus.path root = some r := by
  obtain ⟨inner, spec⟩ := isLocal
  have alone : ∀ u, op .root t = .ok u ↔ inner t = some u := by
    intro u
    rw [spec .root t t rfl u]
    exact ⟨fun ⟨v, makes, same⟩ => Option.some.inj same ▸ makes, fun makes => ⟨u, makes, rfl⟩⟩
  simp only [alone]
  exact spec focus root t there r

theorem exists_error_iff {α : Type} {outcome : Outcome α} :
    (∃ f, outcome = .error f) ↔ ¬ ∃ a, outcome = .ok a := by
  cases outcome <;> simp

/-- A merge at a node changes nothing but what is at or below it. A patch that asks for no call on
the root leaves there what it makes of the same tree as a root, and fails if and only if it fails
there. -/
theorem node_isolated (evaluator : Evaluator) (p : Patch) (focus : Focus) (root t : Tree)
    (there : root.get? focus.path = some t) :
    (∀ r, node evaluator p focus root = .ok r →
      (∃ value, Tree.replace? value focus.path root = some r) ∧ root.OnlyAt focus.path r) ∧
    (p.CallFree →
      (∀ r, node evaluator p focus root = .ok r →
        ∃ u, node evaluator p .root t = .ok u ∧ r.get? focus.path = some u) ∧
      ((∃ f, node evaluator p focus root = .error f) ↔ ∃ f, node evaluator p .root t = .error f)) := by
  constructor
  · intro r done
    obtain ⟨value, replaced⟩ := (node_framed evaluator p).frame focus there done
    exact ⟨⟨value, replaced⟩, Tree.onlyAt_replace? replaced⟩
  · intro callFree
    have alone := (callFree.isLocal evaluator).alone there
    constructor
    · intro r done
      obtain ⟨u, makes, replaced⟩ := (alone r).mp done
      exact ⟨u, makes, Tree.get?_replace? replaced⟩
    · rw [exists_error_iff, exists_error_iff, not_iff_not]
      constructor
      · rintro ⟨r, done⟩
        obtain ⟨u, makes, -⟩ := (alone r).mp done
        exact ⟨u, makes⟩
      · rintro ⟨u, makes⟩
        obtain ⟨r, replaced⟩ := Tree.exists_replace? there u
        exact ⟨r, (alone r).mpr ⟨u, makes, replaced⟩⟩

section Sides

/-- A script that drops an item and puts in a new one, which is built from the payload. -/
def sidePatch : Patch :=
  .edits [.remove 0, .insert (-1) none] { entries := [("width", .scalar (.int 7))] }

def sidesRoot : Tree :=
  .mapping [("left", .list [.int 1, .int 2]), ("right", .mapping [("depth", .int 3)])]

def sidesMerged : Tree :=
  .mapping [("left", .list [.int 2, .mapping [("width", .int 7)]]),
    ("right", .mapping [("depth", .int 3)])]

theorem node_isolated_sides :
    node .refusing sidePatch (Focus.root.atKey "left") sidesRoot = .ok sidesMerged ∧
    sidesRoot.OnlyAt [.key "left"] sidesMerged ∧
    ∃ u, node .refusing sidePatch .root (.list [.int 1, .int 2]) = .ok u ∧
      sidesMerged.get? [.key "left"] = some u := by
  have merges : node .refusing sidePatch (Focus.root.atKey "left") sidesRoot = .ok sidesMerged := by
    with_unfolding_all rfl
  have callFree : sidePatch.CallFree := by
    refine .intro (by simp [sidePatch, Patch.KeepsToNode, Edit.CallFree]) fun c member => ?_
    obtain rfl := List.mem_singleton.mp member
    exact .intro trivial nofun
  have isolated := node_isolated .refusing sidePatch (Focus.root.atKey "left") sidesRoot
    (.list [.int 1, .int 2]) rfl
  exact ⟨merges, (isolated.1 _ merges).2, (isolated.2 callFree).1 _ merges⟩

end Sides

end Merge

end ConfigSweep
