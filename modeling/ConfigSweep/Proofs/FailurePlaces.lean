import ConfigSweep.Proofs.MergeWalk
import ConfigSweep.Proofs.ReadingWalk

/-!
# The place of every failure

A merge fails where a tree cannot be read, where a patch cannot be merged, or where the merged tree
holds a reserved key. Its failure is located once, at the innermost visit that was under way.
-/

namespace ConfigSweep

/-- The merge of a tree into a base fails for the cause, and this is the place of its failure: the
trail and the tree or patch of the visit that fails, or the root and the whole patch for the check
of the merged tree. -/
inductive Merge.FailsAt (evaluator : Evaluator) (base t : Tree) (cause : Cause) : Place → Prop where
  | reading {visit : Patch.NodeRead} (raised : Patch.walk.RaisedAt ⟨t, .root⟩ visit cause) :
      FailsAt evaluator base t cause ⟨visit.trail.dotted, visit.tree.pretty⟩
  | merging {p : Patch} {visit : Merge.Visit} (reads : Patch.ofTree t = .ok p)
      (raised : (Merge.walk evaluator).RaisedAt ⟨p, .root, base⟩ visit cause) :
      FailsAt evaluator base t cause ⟨visit.focus.trail.dotted, visit.patch.toTree.pretty⟩
  | checking {p : Patch} {merged : Tree} (reads : Patch.ofTree t = .ok p)
      (merges : Merge.node evaluator p .root base = .ok merged)
      (refuses : merged.checkPlain = fail cause) :
      FailsAt evaluator base t cause ⟨"<root>", p.toTree.pretty⟩

variable {evaluator : Evaluator} {base t : Tree} {f : Failure}

theorem Evaluator.bare_refusing : Evaluator.refusing.Bare :=
  fun _ _ => .fail _

/-- A tree cannot be read where a visit to one of its nodes fails. -/
theorem Patch.ofTree_eq_error_iff :
    ofTree t = .error f ↔ ∃ visit : NodeRead, walk.RaisedAt ⟨t, .root⟩ visit f.cause ∧
      f.place = some ⟨visit.trail.dotted, visit.tree.pretty⟩ := by
  have visits : walk.run ⟨t, .root⟩ = ofTree t := run_walk _
  rw [← visits]
  exact lawful_walk.run_eq_error_iff

namespace Merge

/-- A patch cannot be merged where a visit to one of the nodes that it leads to fails. -/
theorem node_eq_error_iff (bare : evaluator.Bare) {p : Patch} {focus : Focus} {root : Tree} :
    node evaluator p focus root = .error f ↔ ∃ visit : Visit,
      (walk evaluator).RaisedAt ⟨p, focus, root⟩ visit f.cause ∧
        f.place = some ⟨visit.focus.trail.dotted, visit.patch.toTree.pretty⟩ := by
  have visits : (walk evaluator).run ⟨p, focus, root⟩ = node evaluator p focus root :=
    run_walk evaluator _
  rw [← visits]
  exact (lawful_walk bare).run_eq_error_iff

/-- The check of a merged tree fails for the cause that it finds, at the root of the whole patch. -/
theorem located_checkPlain_eq_error_iff {merged : Tree} {p : Patch} :
    Outcome.located .root p.toTree merged.checkPlain = .error f ↔
      merged.checkPlain = fail f.cause ∧ f.place = some ⟨"<root>", p.toTree.pretty⟩ := by
  rw [Outcome.located_eq_error_iff]
  constructor
  · rintro ⟨⟨cause, place⟩, refuses, rfl⟩
    obtain rfl : place = none := Tree.checkPlainAt_bare merged .root _ refuses
    exact ⟨refuses, rfl⟩
  · rintro ⟨refuses, placed⟩
    obtain ⟨cause, place⟩ := f
    obtain rfl : place = _ := placed
    exact ⟨_, refuses, rfl⟩

end Merge

/-- If calls fail without a place, every failure of a merge has one: that of the visit which was the
innermost under way when it arose, in reading the patch or in merging it, or the root for the check
of the merged tree. And where one of these fails, so does the merge. -/
theorem Tree.merge_eq_error_iff (bare : evaluator.Bare) :
    Tree.merge evaluator base t = .error f ↔
      ∃ place, f.place = some place ∧ Merge.FailsAt evaluator base t f.cause place := by
  constructor
  · intro failed
    rcases bind_eq_error.mp failed with unread | ⟨p, reads, failed⟩
    · obtain ⟨visit, raised, placed⟩ := Patch.ofTree_eq_error_iff.mp unread
      exact ⟨_, placed, .reading raised⟩
    rcases bind_eq_error.mp failed with unmerged | ⟨merged, merges, failed⟩
    · obtain ⟨visit, raised, placed⟩ := (Merge.node_eq_error_iff bare).mp unmerged
      exact ⟨_, placed, .merging reads raised⟩
    rcases bind_eq_error.mp failed with refused | ⟨_, -, none'⟩
    · obtain ⟨refuses, placed⟩ := Merge.located_checkPlain_eq_error_iff.mp refused
      exact ⟨_, placed, .checking reads merges refuses⟩
    · cases none'
  · rintro ⟨place, placed, fails⟩
    cases fails with
    | reading raised =>
      exact bind_eq_error.mpr (.inl (Patch.ofTree_eq_error_iff.mpr ⟨_, raised, placed⟩))
    | merging reads raised =>
      refine bind_eq_error.mpr (.inr ⟨_, reads, bind_eq_error.mpr (.inl ?_)⟩)
      exact (Merge.node_eq_error_iff bare).mpr ⟨_, raised, placed⟩
    | checking reads merges refuses =>
      refine bind_eq_error.mpr (.inr ⟨_, reads, bind_eq_error.mpr (.inr ⟨_, merges, ?_⟩)⟩)
      exact bind_eq_error.mpr (.inl
        (Merge.located_checkPlain_eq_error_iff.mpr ⟨refuses, placed⟩))

section Places

/-- A call inside a payload, an upsert and a group. -/
def buriedCall : Tree :=
  .mapping [("model", .mapping [("sweep_group_a", .mapping [(Keyword.upsert, .mapping [("late",
    .mapping [("layers", .mapping [
      (Keyword.operations, .list [.mapping [(Keyword.insert, .int (-1))]]),
      ("width", (Call.named "wide").directive)])])])])])]

/-- An axis inside an upsert. -/
def buriedAxis : Tree :=
  .mapping [("model", .mapping [
    (Keyword.upsert, .list [.null, .mapping [(Keyword.sweep, .null)]])])]

def layers : Tree :=
  .mapping [("model", .mapping [("layers", .list [.int 8])])]

theorem merge_places_refused :
    Evaluator.refusing.Bare ∧
    (∃ f, Tree.merge .refusing layers buriedCall = .error f ∧
      Merge.FailsAt .refusing layers buriedCall f.cause
        ⟨"model.sweep_group_a.dy__upsert-late.layers.1.width",
          (Call.named "wide").directive.pretty⟩) ∧
    (∃ f, Tree.merge .refusing layers buriedAxis = .error f ∧
      Merge.FailsAt .refusing layers buriedAxis f.cause
        ⟨"model.dy__upsert.1", (Tree.mapping [(Keyword.sweep, .null)]).pretty⟩) ∧
    ∃ f, Tree.merge .refusing buriedAxis layers = .error f ∧
      Merge.FailsAt .refusing buriedAxis layers f.cause ⟨"<root>", layers.pretty⟩ := by
  have bare := Evaluator.bare_refusing
  have located : ∀ {base t : Tree} {place : Place},
      (∃ f, Tree.merge .refusing base t = .error f ∧ f.place = some place) →
        ∃ f, Tree.merge .refusing base t = .error f ∧
          Merge.FailsAt .refusing base t f.cause place := by
    rintro base t place ⟨f, failed, known⟩
    obtain ⟨_, same, fails⟩ := (Tree.merge_eq_error_iff bare).mp failed
    obtain rfl := Option.some.inj (known.symm.trans same)
    exact ⟨f, failed, fails⟩
  refine ⟨bare, located ?_, located ?_, located ?_⟩
  · exact ⟨_, by with_unfolding_all rfl, by with_unfolding_all rfl⟩
  · exact ⟨_, by with_unfolding_all rfl, by with_unfolding_all rfl⟩
  · exact ⟨_, by with_unfolding_all rfl, by with_unfolding_all rfl⟩

end Places

end ConfigSweep
