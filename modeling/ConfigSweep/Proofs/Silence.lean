import ConfigSweep.Proofs.CallFree
import ConfigSweep.Proofs.Contracts

/-!
# Patches that make no call

A patch that makes no call at all is merged alike whatever evaluator is at hand. A tree in which
neither a directive nor a text asks for a call is read as such a patch.
-/

namespace ConfigSweep

namespace Merge

variable {evaluator other : Evaluator}

section Parts

theorem items_congr {ps : List Patch} (each : ∀ p ∈ ps, node evaluator p = node other p) :
    items evaluator ps = items other ps := by
  induction ps with
  | nil => rfl
  | cons p rest ih =>
    rw [List.forall_mem_cons] at each
    funext position focus root
    rw [items, items, each.1, ih each.2]

theorem slots_congr {slots : List (Nat × Patch)}
    (each : ∀ slot ∈ slots, node evaluator slot.2 = node other slot.2) :
    Merge.slots evaluator slots = Merge.slots other slots := by
  induction slots with
  | nil => rfl
  | cons slot rest ih =>
    rw [List.forall_mem_cons] at each
    funext length focus root
    rw [Merge.slots, Merge.slots, each.1, ih each.2]

theorem values_congr {entries : List (String × Patch)}
    (each : ∀ e ∈ entries, node evaluator e.2 = node other e.2) :
    values evaluator entries = values other entries := by
  induction entries with
  | nil => rfl
  | cons e rest ih =>
    rw [List.forall_mem_cons] at each
    funext focus root
    rw [values, values, each.1, ih each.2]

theorem revisits_congr {groups : List (String × Patch)}
    (each : ∀ e ∈ groups, node evaluator e.2 = node other e.2) :
    revisits evaluator groups = revisits other groups := by
  induction groups with
  | nil => rfl
  | cons e rest ih =>
    rw [List.forall_mem_cons] at each
    funext focus root
    rw [revisits, revisits, each.1, ih each.2]

theorem ordered_congr {upserts : List (Option String × Patch)}
    (each : ∀ u ∈ upserts, node evaluator u.2 = node other u.2) :
    ordered evaluator upserts = ordered other upserts := by
  induction upserts with
  | nil => rfl
  | cons u rest ih =>
    rw [List.forall_mem_cons] at each
    funext place focus root
    rw [ordered, ordered, each.1, ih each.2]

theorem keyed_congr {patch : KeyedPatch Patch}
    (each : ∀ p ∈ patch.patches, node evaluator p = node other p) :
    keyed evaluator patch = keyed other patch := by
  obtain ⟨entries, groups, upserts⟩ := patch
  funext focus root
  rw [keyed, keyed, values_congr fun e member => each e.2 (KeyedPatch.mem_patches_of_entry member),
    revisits_congr fun e member => each e.2 (KeyedPatch.mem_patches_of_group member),
    ordered_congr fun u member => each u.2 (KeyedPatch.mem_patches_of_upsert member)]

theorem apply_congr (evaluator other : Evaluator) {edit : Edit} (callFree : edit.CallFree)
    (payload : PayloadMerge) (focus : Focus) (items : List Tree) (root : Tree) :
    edit.apply evaluator payload focus items root = edit.apply other payload focus items root := by
  have literal : ∀ (value : EditValue), (∀ call, some value ≠ some (.computed call)) →
      ∀ root, value.compute evaluator root = value.compute other root := by
    intro value free root
    cases value with
    | literal v => rfl
    | computed call => exact absurd rfl (free call)
  cases edit with
  | insert requested value =>
    cases value with
    | none => rfl
    | some value => simp only [Edit.apply, literal value callFree]
  | overwrite requested value =>
    cases value with
    | none => rfl
    | some value => simp only [Edit.apply, literal value callFree]
  | remove requested => rfl

theorem run_congr (evaluator other : Evaluator) {script : Script}
    (callFree : ∀ edit ∈ script, edit.CallFree) (payload : PayloadMerge) (focus : Focus)
    (root : Tree) :
    script.run evaluator payload focus root = script.run other payload focus root := by
  induction script generalizing root with
  | nil => rfl
  | cons edit rest ih =>
    rw [List.forall_mem_cons] at callFree
    simp only [Script.run, apply_congr evaluator other callFree.1, ih callFree.2]

end Parts

end Merge

namespace Patch

/-- The patch itself makes no call. -/
def MakesNoCall : Patch → Prop
  | .fromRoot _ => False
  | .fromPrevious _ => False
  | .edits script _ => ∀ edit ∈ script, edit.CallFree
  | _ => True

/-- Neither the patch nor one within it makes a call. -/
abbrev Silent (p : Patch) : Prop :=
  p.Everywhere MakesNoCall

/-- The evaluator does not matter to a patch without calls. -/
theorem Silent.node_eq {p : Patch} (silent : p.Silent) (evaluator other : Evaluator) :
    Merge.node evaluator p = Merge.node other p := by
  induction silent with
  | @intro p here within ih =>
    funext focus root
    cases p with
    | scalar value => rfl
    | fromPrevious call => exact here.elim
    | fromRoot call => exact here.elim
    | list items =>
      have each : ∀ p ∈ items, Merge.node evaluator p = Merge.node other p := ih
      rw [Merge.node, Merge.node, Merge.items_congr each]
    | sparse slots =>
      obtain ⟨slots⟩ := slots
      have each : ∀ slot ∈ slots, Merge.node evaluator slot.2 = Merge.node other slot.2 :=
        fun slot member => ih slot.2 (List.mem_map.mpr ⟨slot, member, rfl⟩)
      simp only [Merge.node, Merge.sparse, Merge.slots_congr each]
    | edits script payload =>
      have each : ∀ p ∈ payload.patches, Merge.node evaluator p = Merge.node other p := ih
      simp only [Merge.node, Merge.keyed_congr each, Merge.run_congr evaluator other here]
    | keyed patch =>
      have each : ∀ p ∈ patch.patches, Merge.node evaluator p = Merge.node other p := ih
      rw [Merge.node, Merge.node, Merge.keyed_congr each]

end Patch

namespace Tree

/-- The node itself asks for a call, by a directive or within a text. -/
def asksForCall : Tree → Bool
  | .str text => (embeddedCall? text).isSome
  | .mapping entries => Mapping.has Keyword.eval entries
  | _ => false

/-- Nothing in the tree asks for a call. -/
abbrev Silent (t : Tree) : Prop :=
  t.Everywhere fun node => node.asksForCall = false

theorem Silent.callFree {t : Tree} (silent : t.Silent) : t.CallFree := by
  refine Everywhere.imp (fun node none' => ?_) silent
  cases node with
  | mapping entries => exact Option.isNone_iff_eq_none.mp (Option.isSome_eq_false_iff.mp none')
  | _ => rfl

end Tree

namespace Patch

variable {trail : Trail}

/-- A tree in which nothing asks for a call is read as a patch without calls. -/
theorem silent_of_ofTreeAt {t : Tree} (silent : t.Silent) {p : Patch}
    (done : ofTreeAt t trail = .ok p) : p.Silent := by
  refine (readsEverywhere (fun t trail p silent done => ?_) silent).node trail p done
  cases ofTreeAt_iff.mp done with
  | fromRoot kind =>
    have asked := get?_of_reading_call kind
    rw [(Tree.Silent.callFree silent).get?_eval] at asked
    cases asked
  | fromPrevious embedded =>
    exact absurd silent.here (by simp [Tree.asksForCall, embedded])
  | edits kind scripted =>
    have given := (Tree.Silent.callFree silent).value _ (mem_of_reading_script kind)
    exact Script.ofTree_callFree given scripted
  | _ => trivial

end Patch

/-- The evaluator does not matter to a tree in which nothing asks for a call. -/
theorem Tree.Silent.merge_eq {t : Tree} (silent : t.Silent) (evaluator other : Evaluator)
    (base : Tree) : Tree.merge evaluator base t = Tree.merge other base t := by
  unfold Tree.merge Patch.mergeInto
  cases reads : Patch.ofTree t with
  | error failure => rfl
  | ok p =>
    have same := (Patch.silent_of_ofTreeAt silent reads).node_eq evaluator other
    simp only [bind, Except.bind, same]

end ConfigSweep
