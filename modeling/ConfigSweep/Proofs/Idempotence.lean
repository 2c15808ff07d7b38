import ConfigSweep.Proofs.Overlay

/-!
# Merging a literal patch again

A literal patch is merged to no effect into a node that it was laid over before: the node has the
shape that the patch asks for, no key and no item is missing, and each step of the merge finds its
value as it leaves it.
-/

namespace ConfigSweep

namespace Merge

open Patch

variable {evaluator : Evaluator} {focus : Focus} {root t : Tree}

section Stays

theorem revealed_stays (there : root.get? focus.path = some t) (settled : t.reveal = .ok t) :
    focus.revealed root = .ok (t, root) := by
  have reveals : Stopped.outcome t.reveal = .ok t := Stopped.outcome_eq_ok.mpr settled
  have writes : focus.write t root = .ok root :=
    Focus.write_eq_ok.mpr (Tree.replace?_self there)
  refine bind_eq_ok.mpr ⟨t, Focus.read_eq_ok.mpr there, bind_eq_ok.mpr ⟨t, reveals, ?_⟩⟩
  exact bind_eq_ok.mpr ⟨root, writes, rfl⟩

theorem settle_stays (there : root.get? focus.path = some t) (settled : t.reveal = .ok t)
    {p : Patch} {outcome : Outcome Tree} (merges : outcome = .ok root) :
    settle focus p outcome = .ok root := by
  refine settle_eq_ok.mpr ⟨root, merges, ?_⟩
  exact bind_eq_ok.mpr ⟨(t, root), revealed_stays there settled, rfl⟩

theorem slots_stay {ps : List (Nat × Patch)} {length : Nat}
    (each : ∀ slot ∈ ps, slot.1 < length ∧
      node evaluator slot.2 (focus.atIndex slot.1) root = .ok root) :
    slots evaluator ps length focus root = .ok root := by
  induction ps with
  | nil => rfl
  | cons slot rest ih =>
    rw [List.forall_mem_cons] at each
    obtain ⟨⟨within, merges⟩, later⟩ := each
    rw [slots, if_neg (Nat.not_le.mpr within)]
    exact bind_eq_ok.mpr ⟨root, merges, ih later⟩

theorem values_stay {m : Mapping Tree} (there : root.get? focus.path = some (.mapping m))
    {entries : List (String × Patch)}
    (each : ∀ e ∈ entries, e.1 ∈ Mapping.keys m ∧
      node evaluator e.2 (focus.atKey e.1) root = .ok root) :
    values evaluator entries focus root = .ok root := by
  induction entries with
  | nil => rfl
  | cons e rest ih =>
    rw [List.forall_mem_cons] at each
    obtain ⟨⟨member, merges⟩, later⟩ := each
    have kept : opened e.1 m = m := if_pos (Mapping.has_iff.mpr member)
    have ensured : ensureKey focus e.1 root = .ok root :=
      ensureKey_eq_ok.mpr ⟨m, there, kept.symm ▸ Tree.replace?_self there⟩
    exact bind_eq_ok.mpr ⟨root, ensured, bind_eq_ok.mpr ⟨root, merges, ih later⟩⟩

theorem list_stays {ps : List Patch} {items : List Tree}
    (there : root.get? focus.path = some (.list items)) (size : items.length = ps.length)
    (each : ∀ position p, ps[position]? = some p →
      node evaluator p (focus.atIndex position) root = .ok root) :
    node evaluator (.list ps) focus root = .ok root := by
  have opens : openList focus ps.length root = .ok root :=
    bind_eq_ok.mpr ⟨_, revealed_stays there rfl, if_pos size⟩
  have merges : Merge.items evaluator ps 0 focus root = .ok root := by
    rw [items_eq_slots (Nat.le_of_eq (Nat.zero_add ps.length))]
    refine slots_stay fun slot member => ?_
    have found := SparseList.at?_of_mem (SparseList.pairwise_slotsOf ps 0) member
    have listed : (Patch.list ps).place? (.index slot.1) = some slot.2 := place?_slotsOf ps ▸ found
    exact ⟨(List.getElem?_eq_some_iff.mp listed).1, each _ _ listed⟩
  exact settle_stays there rfl (bind_eq_ok.mpr ⟨root, opens, merges⟩)

theorem sparse_stays {ps : List (Nat × Patch)} {items : List Tree}
    (there : root.get? focus.path = some (.list items))
    (each : ∀ slot ∈ ps, slot.1 < items.length ∧
      node evaluator slot.2 (focus.atIndex slot.1) root = .ok root) :
    node evaluator (.sparse ⟨ps⟩) focus root = .ok root := by
  have opens : openSlots focus ⟨ps⟩ root = .ok (items.length, root) :=
    bind_eq_ok.mpr ⟨_, revealed_stays there rfl, rfl⟩
  exact settle_stays there rfl (bind_eq_ok.mpr ⟨_, opens, slots_stay each⟩)

theorem keyed_stays {entries : List (String × Patch)} (there : root.get? focus.path = some t)
    (settled : t.reveal = .ok t) (fits : (Patch.keyed { entries }).Fits t)
    (each : ∀ e ∈ entries, ∀ m, t = .mapping m → e.1 ∈ Mapping.keys m ∧
      node evaluator e.2 (focus.atKey e.1) root = .ok root) :
    node evaluator (.keyed { entries }) focus root = .ok root := by
  have parts : openMapping focus entries.isEmpty root = .ok root ∧
      values evaluator entries focus root = .ok root := by
    have revealed := revealed_stays there settled
    cases t with
    | mapping m =>
      exact ⟨bind_eq_ok.mpr ⟨_, revealed, rfl⟩,
        values_stay there fun e member => each e member m rfl⟩
    | list items =>
      obtain rfl : entries = [] := fits
      exact ⟨bind_eq_ok.mpr ⟨_, revealed, rfl⟩, rfl⟩
    | _ => exact fits.elim
  have merges : keyed evaluator { entries } focus root = .ok root :=
    bind_eq_ok.mpr ⟨root, parts.1, bind_eq_ok.mpr ⟨root, parts.2, rfl⟩⟩
  exact settle_stays there settled merges

end Stays

/-- A literal patch changes nothing in a tree that it was laid over. -/
theorem node_stays {p : Patch} {u : Tree} (laid : Overlays p t u) (literal : p.Literal)
    (evaluator : Evaluator) (focus : Focus) (root : Tree) (there : root.get? focus.path = some u) :
    node evaluator p focus root = .ok root := by
  induction laid generalizing focus root with
  | leaf value t =>
    have settled := (Overlays.leaf value t).reveal literal.here
    exact settle_stays there settled (Focus.write_eq_ok.mpr (Tree.replace?_self there))
  | @node p t shown u reveals fits settled found placed kept ih =>
    -- The tree is the same at each step of the merge, so the children can be looked at one by one.
    have below : ∀ step q, p.place? step = some q → ∀ down : Focus,
        down.path = focus.path ++ [step] → node evaluator q down root = .ok root := by
      intro step q here down path
      obtain ⟨v, toChild⟩ := found step q here
      refine ih step q v here toChild (literal.place? here) down root ?_
      rw [path, Tree.get?_concat, there]
      exact toChild
    cases p with
    | list ps =>
      cases u with
      | list items => exact list_stays there fits fun position q here => below (.index position) q here _ rfl
      | _ => exact fits.elim
    | sparse s =>
      obtain ⟨ps⟩ := s
      cases u with
      | list items =>
        refine sparse_stays there fun slot member => ?_
        have here : (Patch.sparse ⟨ps⟩).place? (.index slot.1) = some slot.2 :=
          SparseList.at?_of_mem literal.here member
        obtain ⟨v, toChild⟩ := found _ _ here
        exact ⟨(List.getElem?_eq_some_iff.mp toChild).1, below _ _ here _ rfl⟩
      | _ => exact fits.elim
    | keyed patch =>
      obtain ⟨entries, groups, upserts⟩ := patch
      obtain ⟨unique, -, rfl, rfl⟩ := literal.here
      refine keyed_stays there settled fits ?_
      rintro e member m rfl
      have here : (Patch.keyed { entries }).place? (.key e.1) = some e.2 :=
        Mapping.get?_of_mem unique member
      obtain ⟨v, toChild⟩ := found _ _ here
      exact ⟨Mapping.mem_keys_of_get? toChild, below _ _ here _ rfl⟩
    | _ => exact fits.elim

end Merge

namespace Tree

/-- A patch of plain data that was merged is merged again to no effect: the second merge succeeds and
leaves the tree as it is, with its keys in their order. -/
theorem merge_again (evaluator : Evaluator) (base patch merged : Tree) (distinct : patch.Distinct)
    (unreserved : patch.Everywhere Unreserved) (silent : patch.Silent)
    (done : merge evaluator base patch = .ok merged) : merge evaluator merged patch = .ok merged := by
  obtain ⟨p, reads, literal, laid⟩ :=
    overlays_of_merge (everywhere_plainData distinct unreserved silent) done
  have stays := Merge.node_stays laid literal evaluator .root merged rfl
  have plain := (merge_settled done).2
  exact merge_eq_ok.mpr ⟨p, reads, stays, plain⟩

section Stack

/-- The layers are a list in disguise. -/
def stackBase : Tree :=
  .mapping [("name", .str "small"),
    ("layers", .mapping [(Position.token 1, .int 8), (Position.token 0, .int 4)])]

/-- One layer is widened, and a value is put where there was none. -/
def stackPatch : Tree :=
  .mapping [("seeds", .list [.int 1, .null]),
    ("layers", .mapping [(Position.token 1, .mapping [("width", .int 9)])])]

def stackMerged : Tree :=
  .mapping [("name", .str "small"), ("layers", .list [.int 4, .mapping [("width", .int 9)]]),
    ("seeds", .list [.int 1, .null])]

theorem merge_again_stack : merge .refusing stackBase stackPatch = .ok stackMerged ∧
    merge .refusing stackMerged stackPatch = .ok stackMerged := by
  have merges : merge .refusing stackBase stackPatch = .ok stackMerged := by with_unfolding_all rfl
  have unreserved : stackPatch.Everywhere Unreserved := (checkPlainAt_eq_ok stackPatch .root).mp rfl
  exact ⟨merges, merge_again .refusing stackBase stackPatch stackMerged (by decide) unreserved
    (by decide) merges⟩

end Stack

end Tree

end ConfigSweep
