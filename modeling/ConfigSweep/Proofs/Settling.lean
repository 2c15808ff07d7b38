import ConfigSweep.Proofs.Coverage
import ConfigSweep.Proofs.Idempotence

/-!
# Nodes that settle

A merge ends each node by revealing it. The payload of a script is merged without that end, and it
makes no difference if the payload settles: what came last in it then was the merge of a patch that
ends the node itself, or the node has a key that is no position token.
-/

namespace ConfigSweep

/-- The node in focus is no list in disguise. -/
def Focus.Settled (focus : Focus) (root : Tree) : Prop :=
  ∃ t, root.get? focus.path = some t ∧ t.isDisguised = false

namespace Merge

variable {evaluator : Evaluator} {focus : Focus} {root r : Tree}

theorem shown_of_revealed {t : Tree} (done : focus.revealed root = .ok (t, r)) :
    (∃ before, root.get? focus.path = some before ∧ before.reveal = .ok t) ∧
      r.get? focus.path = some t := by
  obtain ⟨before, reads, done⟩ := bind_eq_ok.mp done
  obtain ⟨shown, reveals, done⟩ := bind_eq_ok.mp done
  obtain ⟨written, writes, done⟩ := bind_eq_ok.mp done
  obtain ⟨rfl, rfl⟩ := Prod.mk.inj (Except.ok.inj done)
  exact ⟨⟨before, Focus.read_eq_ok.mp reads, Stopped.outcome_eq_ok.mp reveals⟩,
    Tree.get?_replace? (Focus.write_eq_ok.mp writes)⟩

theorem settled_of_revealed {t : Tree} (done : focus.revealed root = .ok (t, r)) :
    focus.Settled r := by
  obtain ⟨⟨before, -, reveals⟩, found⟩ := shown_of_revealed done
  exact ⟨t, found, Tree.isDisguised_of_reveal reveals⟩

theorem settled_of_settle {p : Patch} {outcome : Outcome Tree}
    (done : settle focus p outcome = .ok r) : focus.Settled r := by
  obtain ⟨merged, -, reveals⟩ := settle_eq_ok.mp done
  obtain ⟨⟨t, shown⟩, shows, done⟩ := bind_eq_ok.mp reveals
  obtain rfl : shown = r := Except.ok.inj done
  exact settled_of_revealed shows

/-- Every patch ends the node that it is merged into. -/
theorem settled_of_node {p : Patch} (done : node evaluator p focus root = .ok r) :
    focus.Settled r := by
  cases p <;> exact settled_of_settle done

section Payloads

theorem settled_of_revisits {groups : List (String × Patch)}
    (before : focus.Settled root ∨ groups ≠ [])
    (done : revisits evaluator groups focus root = .ok r) : focus.Settled r := by
  induction groups generalizing root with
  | nil =>
    obtain rfl := Except.ok.inj done
    exact before.resolve_right fun filled => filled rfl
  | cons e rest ih =>
    obtain ⟨merged, first, later⟩ := bind_eq_ok.mp done
    have settled : (focus.under e.1).Settled merged := settled_of_node first
    exact ih (.inl settled) later

theorem settled_of_ordered {upserts : List (Option String × Patch)} {place : Nat}
    (before : focus.Settled root ∨ upserts ≠ [])
    (done : ordered evaluator upserts place focus root = .ok r) : focus.Settled r := by
  induction upserts generalizing root place with
  | nil =>
    obtain rfl := Except.ok.inj done
    exact before.resolve_right fun filled => filled rfl
  | cons u rest ih =>
    obtain ⟨merged, first, later⟩ := bind_eq_ok.mp done
    have settled : (focus.under (KeyedPatch.upsertLabel place u.1)).Settled merged :=
      settled_of_node first
    exact ih (.inl settled) later

/-- An opened mapping is revealed, and a list is. -/
theorem settled_of_openMapping {noEntries : Bool}
    (done : openMapping focus noEntries root = .ok r) : focus.Settled r := by
  obtain ⟨⟨t, shown⟩, reveals, done⟩ := bind_eq_ok.mp done
  dsimp only at done
  split at done
  · obtain rfl : shown = r := Except.ok.inj done
    exact settled_of_revealed reveals
  · exact ⟨_, Tree.get?_replace? (Focus.write_eq_ok.mp done), rfl⟩
  · split at done
    · obtain rfl : shown = r := Except.ok.inj done
      exact settled_of_revealed reveals
    · cases done

section Entries

variable {entries : List (String × Patch)}

/-- Entries are merged into a mapping. It is the node itself, unless the node holds nothing to keep. -/
theorem mapping_of_openMapping {t : Tree} (there : root.get? focus.path = some t)
    (done : openMapping focus false root = .ok r) :
    ∃ m, r.get? focus.path = some (.mapping m) ∧
      (t.isBlank = false → ∃ key ∈ Mapping.keys m, Position.isToken key = false) := by
  obtain ⟨⟨shown, changed⟩, reveals, done⟩ := bind_eq_ok.mp done
  obtain ⟨⟨before, reads, shows⟩, found⟩ := shown_of_revealed reveals
  obtain rfl := Option.some.inj (there.symm.trans reads)
  cases Tree.reveal_iff.mp shows with
  | list positional within lists => cases done
  | itself plain =>
    cases t with
    | list items => cases done
    | mapping m =>
      obtain rfl := Except.ok.inj done
      refine ⟨m, found, fun kept => ?_⟩
      have keys : (Mapping.keys m).isEmpty = false := by
        rw [Mapping.keys, List.isEmpty_map]
        exact kept
      rw [Tree.isDisguised, Mapping.isPositional_eq, keys, Bool.not_false, Bool.true_and] at plain
      simpa using plain
    | _ => exact ⟨[], Tree.get?_replace? (Focus.write_eq_ok.mp done), fun kept => by cases kept⟩

/-- The mapping keeps its keys and gets those of the entries. -/
theorem mapping_of_values {m : Mapping Tree} (there : root.get? focus.path = some (.mapping m))
    (done : values evaluator entries focus root = .ok r) :
    ∃ n, r.get? focus.path = some (.mapping n) ∧
      ∀ key ∈ Mapping.keys m ++ entries.map (·.1), key ∈ Mapping.keys n := by
  have keeping : Keeping evaluator (fun _ => True) fun _ => True :=
    keeping_anything (fun _ => trivial) fun _ => trivial
  have fills : Contract (fun _ => True) (MappingOver (fun _ => True) (fun _ => True) (Mapping.keys m))
      (fun focus root => values evaluator entries focus root)
      (MappingOver (fun _ => True) (fun _ => True) (Mapping.keys m ++ entries.map (·.1))) :=
    keeping.values (fun _ _ => trivial) (fun e _ => node_anything keeping e.2) _
  obtain ⟨u, replaced, -, n, rfl, present, -⟩ := fills.leaves focus there
    ⟨anyChildren _, m, rfl, fun _ member => member, fun _ _ => trivial⟩ done
  exact ⟨n, Tree.get?_replace? replaced, present⟩

theorem settled_of_key {m : Mapping Tree} (found : r.get? focus.path = some (.mapping m))
    {key : String} (member : key ∈ Mapping.keys m) (plain : Position.isToken key = false) :
    focus.Settled r :=
  ⟨_, found, Mapping.isPositional_of_key member plain⟩

end Entries

/-- A payload that settles leaves no list in disguise, and neither does one that is merged into a
node with something to keep. -/
theorem settled_of_keyed {payload : KeyedPatch Patch} {t : Tree}
    (there : root.get? focus.path = some t) (settles : payload.Settles ∨ t.isBlank = false)
    (done : keyed evaluator payload focus root = .ok r) : focus.Settled r := by
  obtain ⟨entries, groups, upserts⟩ := payload
  obtain ⟨opened, opens, done⟩ := bind_eq_ok.mp done
  obtain ⟨valued, fills, done⟩ := bind_eq_ok.mp done
  obtain ⟨grouped, revisited, upserted⟩ := bind_eq_ok.mp done
  have entered : focus.Settled valued → focus.Settled r := fun settled =>
    settled_of_ordered (.inl (settled_of_revisits (.inl settled) revisited)) upserted
  by_cases none' : entries = []
  · obtain rfl : opened = valued := by
      rw [none'] at fills
      exact Except.ok.inj fills
    exact entered (settled_of_openMapping opens)
  · rw [List.isEmpty_eq_false_iff.mpr none'] at opens
    obtain ⟨m, here, kept⟩ := mapping_of_openMapping there opens
    obtain ⟨n, found, present⟩ := mapping_of_values here fills
    rcases settles with (empty | ⟨e, member, plain⟩ | filled | filled) | notBlank
    · exact absurd empty none'
    · exact entered (settled_of_key found
        (present e.1 (List.mem_append_right _ (List.mem_map_of_mem member))) plain)
    · exact settled_of_ordered (.inl (settled_of_revisits (.inr filled) revisited)) upserted
    · exact settled_of_ordered (.inr filled) upserted
    · obtain ⟨key, member, plain⟩ := kept notBlank
      exact entered (settled_of_key found (present key (List.mem_append_left _ member)) plain)

/-- A payload that does not settle leaves a mapping. -/
theorem mapping_of_loose {payload : KeyedPatch Patch} (loose : ¬ payload.Settles) {t : Tree}
    (there : root.get? focus.path = some t)
    (done : keyed evaluator payload focus root = .ok r) :
    ∃ m, r.get? focus.path = some (.mapping m) := by
  obtain ⟨entries, groups, upserts⟩ := payload
  unfold KeyedPatch.Settles at loose
  push Not at loose
  obtain ⟨filled, -, rfl, rfl⟩ := loose
  obtain ⟨opened, opens, done⟩ := bind_eq_ok.mp done
  obtain ⟨valued, fills, rest⟩ := bind_eq_ok.mp done
  obtain rfl : valued = r := Except.ok.inj rest
  rw [List.isEmpty_eq_false_iff.mpr filled] at opens
  obtain ⟨m, here, -⟩ := mapping_of_openMapping there opens
  obtain ⟨n, found, -⟩ := mapping_of_values here fills
  exact ⟨n, found⟩

/-- Then merging the payload is merging it as a patch of its own. -/
theorem node_keyed_eq_ok {payload : KeyedPatch Patch} {t : Tree}
    (there : root.get? focus.path = some t) (settles : payload.Settles ∨ t.isBlank = false) :
    node evaluator (.keyed payload) focus root = .ok r ↔
      keyed evaluator payload focus root = .ok r := by
  rw [node, settle_eq_ok]
  constructor
  · rintro ⟨merged, merges, reveals⟩
    obtain ⟨u, found, plain⟩ := settled_of_keyed there settles merges
    have stays : focus.reveal merged = .ok merged :=
      bind_eq_ok.mpr ⟨_, revealed_stays found (Tree.reveal_of_not_disguised plain), rfl⟩
    exact Except.ok.inj (stays.symm.trans reveals) ▸ merges
  · intro merges
    obtain ⟨u, found, plain⟩ := settled_of_keyed there settles merges
    exact ⟨r, merges,
      bind_eq_ok.mpr ⟨_, revealed_stays found (Tree.reveal_of_not_disguised plain), rfl⟩⟩

end Payloads

/-- Patches at positions leave a list. -/
theorem list_of_sparse {slots : SparseList Patch} {t : Tree}
    (there : root.get? focus.path = some t)
    (done : node evaluator (.sparse slots) focus root = .ok r) :
    ∃ items, r.get? focus.path = some (.list items) := by
  obtain ⟨slots⟩ := slots
  have keeping : Keeping evaluator (fun _ => True) fun _ => True :=
    keeping_anything (fun _ => trivial) fun _ => trivial
  have merges : Contract (fun _ => True) (·.AllChildren fun _ => True)
      (fun focus root => openSlots focus ⟨slots⟩ root >>= fun opened =>
        Merge.slots evaluator slots opened.1 focus opened.2) (ListOver fun _ => True) :=
    keeping.sparse fun slot _ => node_anything keeping slot.2
  have settles : Contract (fun _ => True) (·.AllChildren fun _ => True)
      (node evaluator (.sparse ⟨slots⟩)) fun t => ∃ items, t = .list items := by
    refine .settle keeping.gaps merges _ fun t shown holds reveals => ?_
    obtain ⟨-, items, rfl⟩ := holds
    exact ⟨items, (Except.ok.inj reveals).symm⟩
  obtain ⟨u, replaced, items, rfl⟩ := settles.leaves focus there (anyChildren t) done
  exact ⟨items, Tree.get?_replace? replaced⟩

end Merge

end ConfigSweep
