import ConfigSweep.Proofs.CallFree
import ConfigSweep.Proofs.Targets

/-!
# Lists in disguise

A merge reveals each node that it ends with, so that no list in disguise is left in a tree that had
none. The payload of a script is the exception: it is merged into an item without ending as a node
does. Items are free of disguise if the payload settles, and a new item made from any other payload
is a list in disguise.
-/

namespace ConfigSweep

namespace Tree

variable {t u : Tree}

/-- The node holds nothing that a mapping made of it would keep. -/
def isBlank : Tree → Bool
  | .list _ => false
  | .mapping m => m.isEmpty
  | _ => true

/-- No node of the tree is a list in disguise. -/
abbrev Undisguised (t : Tree) : Prop :=
  t.Everywhere fun node => node.isDisguised = false

theorem undisguised_of_reveal (below : t.AllChildren Undisguised) (done : t.reveal = .ok u) :
    u.Undisguised :=
  .of_children (isDisguised_of_reveal done) (below.reveal done)

theorem undisguised_of_revealAll {r : Tree} (done : t.revealAll = .ok r) : r.Undisguised := by
  induction t using children_induction generalizing r with
  | node t ih =>
    cases t with
    | list items =>
      obtain ⟨shown, each, rfl⟩ := revealAll_list_eq_ok.mp done
      refine .of_children rfl (allChildren_list.mpr fun s member => ?_)
      obtain ⟨a, inside, reveals⟩ := exists_left each s member
      obtain ⟨_, child⟩ := exists_child_of_item inside
      exact ih _ child reveals
    | mapping entries =>
      obtain ⟨shown, each, revealed⟩ := revealAll_mapping_eq_ok.mp done
      refine undisguised_of_reveal (allChildren_mapping.mpr fun e member => ?_) revealed
      obtain ⟨d, inside, -, reveals⟩ := exists_left each e member
      exact ih _ (child_of_entry inside) reveals
    | _ =>
      obtain rfl := Except.ok.inj done
      rfl

end Tree

section Scripts

open ConfigSweep.Tree

theorem EditValue.eq_of_ofTree {t v : Tree} (done : EditValue.ofTree t = .ok (.literal v)) :
    v = t := by
  unfold EditValue.ofTree at done
  split at done
  · split at done
    · exact (EditValue.literal.inj (Except.ok.inj done)).symm
    · split at done
      · cases done
      · obtain ⟨call, -, same⟩ := map_eq_ok.mp done
        cases same
  · exact (EditValue.literal.inj (Except.ok.inj done)).symm

theorem Edit.ArgumentFrom.undisguised {t : Tree} {position : Int} {v : Tree}
    (argument : ArgumentFrom t position (some (.literal v))) (plain : t.Undisguised) :
    v.Undisguised := by
  cases argument with
  | @pair _ second _ _ counts read =>
    exact EditValue.eq_of_ofTree read ▸ everywhereItems_iff.mp plain.2 second (by simp)

/-- Literals of instructions were revealed when they were read. -/
theorem Edit.undisguised_of_ofTree {t : Tree} {edit : Edit} (done : Edit.ofTree t = .ok edit)
    {v : Tree} (literal : edit.value? = some (.literal v)) : v.Undisguised := by
  cases Edit.ofTree_iff.mp done with
  | insert named reveals read =>
    obtain rfl := literal
    exact read.undisguised (undisguised_of_revealAll reveals)
  | overwrite named reveals read =>
    obtain rfl := literal
    exact read.undisguised (undisguised_of_revealAll reveals)
  | remove named reveals counts => cases literal

theorem Script.undisguised_of_ofTree {t : Tree} {script : Script}
    (done : Script.ofTree t = .ok script) :
    ∀ edit ∈ script, ∀ v, edit.value? = some (.literal v) → v.Undisguised := by
  intro edit member v literal
  obtain ⟨c, -, read⟩ := Script.exists_child_of_ofTree done edit member
  exact Edit.undisguised_of_ofTree read literal

end Scripts

namespace Patch

/-- Each item that the script of the patch itself makes from its payload is made by a payload that
settles. -/
def ScriptSettles : Patch → Prop
  | .edits script payload => ∀ edit ∈ script, edit.UsesPayload → payload.Settles
  | _ => True

/-- A patch that was read of a tree brings no disguise if its scripts settle. -/
theorem brings_undisguised {t : Tree} {p : Patch} (reads : ofTree t = .ok p)
    (settles : p.Everywhere ScriptSettles) : p.Everywhere (Brings Tree.Undisguised) := by
  have anything : t.Everywhere fun _ => True := t.everywhere_of_forall fun _ => trivial
  have told : ReadsEverywhere (fun q => ∃ trail t, NodeFrom trail t q) t :=
    readsEverywhere (fun t trail _ _ done => ⟨trail, t, ofTreeAt_iff.mp done⟩) anything
  refine ((told.node .root p reads).and settles).imp fun q both => ?_
  obtain ⟨⟨trail, t, node⟩, settles⟩ := both
  cases node with
  | scalar leaf => exact Tree.allChildren_leaf leaf
  | edits kind scripted =>
    exact ⟨Script.undisguised_of_ofTree scripted,
      fun edit member uses => .inl (settles edit member uses)⟩
  | _ => trivial

end Patch

/-- No call yields a list in disguise. -/
def Evaluator.Undisguised (evaluator : Evaluator) : Prop :=
  ∀ call argument value, evaluator call argument = .ok value → value.Undisguised

namespace Merge

variable {evaluator : Evaluator}

theorem keeping_undisguised (plain : evaluator.Undisguised) :
    Keeping evaluator (fun _ => True) Tree.Undisguised where
  blank := rfl
  below := Tree.Everywhere.child
  shown := Tree.undisguised_of_reveal
  regular _ := trivial
  yields := plain _ _ _
  refuses _ := trivial

section Insertion

variable {payload : KeyedPatch Patch} (loose : ¬ payload.Settles)

include loose

/-- A payload that does not settle makes a list in disguise of nothing. -/
theorem keyed_disguises : Contract (fun _ => True) (·.isBlank = true)
    (fun focus root => keyed evaluator payload focus root) fun t => t.isDisguised = true := by
  have keeping : Keeping evaluator (fun _ => True) fun _ => True :=
    keeping_anything (fun _ => trivial) fun _ => trivial
  obtain ⟨entries, groups, upserts⟩ := payload
  unfold KeyedPatch.Settles at loose
  push Not at loose
  obtain ⟨filled, tokens, rfl, rfl⟩ := loose
  dsimp only at filled tokens
  have opens : Contract (fun _ => True) (·.isBlank = true)
      (fun focus root => openMapping focus entries.isEmpty root)
      (MappingOver (fun _ => True) (fun key => Position.isToken key = true) []) := by
    refine .revealed (fun _ _ => trivial) fun t shown blank reveals => ?_
    have empty : MappingOver (fun _ => True) (fun key => Position.isToken key = true) []
        (.mapping []) := ⟨anyChildren _, [], rfl, nofun, nofun⟩
    cases t with
    | list items => cases blank
    | mapping m =>
      obtain rfl : m = [] := List.isEmpty_iff.mp blank
      obtain rfl := Except.ok.inj reveals
      exact .stay empty
    | _ =>
      obtain rfl := Except.ok.inj reveals
      exact .write empty
  have known : ∀ e ∈ entries, Position.isToken e.1 = true := fun e member => by
    simpa using tokens e member
  have fills : Contract (fun _ => True)
      (MappingOver (fun _ => True) (fun key => Position.isToken key = true) [])
      (fun focus root => values evaluator entries focus root)
      (MappingOver (fun _ => True) (fun key => Position.isToken key = true) (entries.map (·.1))) :=
    keeping.values known (fun e _ => node_anything keeping e.2) []
  refine (opens.bind (fills.bind (Contract.ok.bind .ok))).weaken (fun _ blank => blank) fun t holds => ?_
  obtain ⟨-, m, rfl, present, known⟩ := holds
  obtain ⟨e, member⟩ := List.exists_mem_of_ne_nil entries filled
  have key : e.1 ∈ Mapping.keys m := present e.1 (List.mem_map_of_mem member)
  rw [Tree.isDisguised, Mapping.isPositional_eq, Bool.and_eq_true, List.all_eq_true]
  exact ⟨by simpa using List.ne_nil_of_mem key, known⟩

/-- A new item that is made from such a payload stays a list in disguise. -/
theorem insert_disguises (requested : Int) (items : List Tree) :
    Contract (fun _ => True) (· = .list items)
      (node evaluator (.edits [.insert requested none] payload)) fun t => ¬ t.Undisguised := by
  have opens : Contract (fun _ => True) (· = .list items) (fun focus root => openScript focus root)
      (· = .list items) := by
    refine .revealed (fun _ _ => trivial) fun t shown here reveals => ?_
    subst here
    obtain rfl := Except.ok.inj reveals
    exact .stay rfl
  have inserts : Contract (fun _ => True) (· = .list items)
      (fun focus root => Edit.apply evaluator (fun focus root => keyed evaluator payload focus root)
        focus items root (.insert requested none))
      fun t => ∃ changed, t = .list changed ∧ ¬ t.Undisguised := by
    refine .given (fun _ _ _ => trivial) fun _ position done => ?_
    have within := Position.forInsertion_le done
    have puts : Contract (fun _ => True) (· = .list items)
        (fun focus root => focus.write (.list (items.insertIdx position .null)) root)
        (· = .list (items.insertIdx position .null)) := .write rfl
    refine puts.bind ((keyed_disguises loose).child (fun _ => rfl) fun t same => ?_)
    subst same
    have isChild : (Tree.list (items.insertIdx position .null)).child? (.index position)
        = some .null :=
      List.getElem?_insertIdx_self.trans (if_pos within)
    refine ⟨.null, isChild, rfl, fun value disguised => ⟨_, rfl, fun plain => ?_⟩⟩
    have item : value.Undisguised :=
      Tree.AllChildren.child? (Tree.Everywhere.child plain) (Tree.child?_setChild isChild value)
    rw [item.here] at disguised
    cases disguised
  have runs : Contract (fun _ => True) (· = .list items)
      (fun focus root => Script.run evaluator
        (fun focus root => keyed evaluator payload focus root) focus [.insert requested none] root)
      fun t => ∃ changed, t = .list changed ∧ ¬ t.Undisguised := by
    unfold Script.run Focus.items
    simp only [bind_assoc]
    refine .read fun t same => ?_
    subst same
    exact inserts.bind .ok
  refine .settle (fun _ _ => trivial) (opens.bind runs) _ fun t shown leaves reveals => ?_
  obtain ⟨changed, rfl, disguised⟩ := leaves
  obtain rfl := Except.ok.inj reveals
  exact disguised

end Insertion

/-- If the calls and the base are free of lists in disguise, then so is what a patch makes of the base
whose scripts settle. A script that makes a new item from a payload that does not settle leaves a
list in disguise. -/
theorem undisguised_of_merge (plain : evaluator.Undisguised) :
    (∀ (base patch merged : Tree) (p : Patch), base.Undisguised → Patch.ofTree patch = .ok p →
      p.Everywhere Patch.ScriptSettles → Tree.merge evaluator base patch = .ok merged →
      merged.Undisguised) ∧
    (∀ (payload : KeyedPatch Patch) (requested : Int) (focus : Focus) (root r : Tree)
      (items : List Tree), ¬ payload.Settles → root.get? focus.path = some (.list items) →
      node evaluator (.edits [.insert requested none] payload) focus root = .ok r →
      ∃ merged, r.get? focus.path = some merged ∧ ¬ merged.Undisguised) := by
  constructor
  · intro base patch merged p plainBase reads settles done
    obtain ⟨q, reads', merges, -⟩ := Tree.merge_eq_ok.mp done
    obtain rfl := Except.ok.inj (reads.symm.trans reads')
    have brings := Patch.brings_undisguised reads settles
    obtain ⟨u, replaced, whole⟩ := ((keeping_undisguised plain).node brings).leaves .root rfl
      (Tree.Everywhere.child plainBase) merges
    obtain rfl := Option.some.inj replaced
    exact whole
  · intro payload requested focus root r items loose there done
    obtain ⟨u, replaced, disguised⟩ :=
      (insert_disguises loose requested items).leaves focus there rfl done
    exact ⟨u, Tree.get?_replace? replaced, disguised⟩

section Queue

def queue : Tree :=
  .mapping [("queue", .list [.mapping [("width", .int 1)]])]

/-- A literal with a list in disguise goes to the front, an item made from the payload to the end. -/
def queueing : Tree :=
  .mapping [("queue", .mapping [
    (Keyword.operations, .list [
      .mapping [(Keyword.insert, .list [.int 0, .mapping [(Position.token 0, .int 5)]])],
      .mapping [(Keyword.insert, .int (-1))]]),
    ("width", .int 2)])]

def queueingPatch : Patch :=
  .keyed { entries := [("queue", .edits
    [.insert 0 (some (.literal (.list [.int 5]))), .insert (-1) none]
    { entries := [("width", .scalar (.int 2))] })] }

def queued : Tree :=
  .mapping [("queue", .list [.list [.int 5], .mapping [("width", .int 1)],
    .mapping [("width", .int 2)]])]

/-- A payload that is meant as a list of one item. -/
def disguisedPayload : KeyedPatch Patch where
  entries := [(Position.token 0, .scalar (.int 5))]

def disguised : Tree :=
  .mapping [("queue", .list [.mapping [(Position.token 0, .int 5)], .mapping [("width", .int 1)]])]

theorem undisguised_queue :
    (Tree.merge .refusing queue queueing = .ok queued ∧ queued.Undisguised) ∧
    ¬ disguisedPayload.Settles ∧
    node .refusing (.edits [.insert 0 none] disguisedPayload) (Focus.root.atKey "queue") queue
      = .ok disguised ∧
    ∃ merged, disguised.get? [.key "queue"] = some merged ∧ ¬ merged.Undisguised := by
  have plain : Evaluator.refusing.Undisguised := fun _ _ _ done => nomatch done
  obtain ⟨kept, leaks⟩ := undisguised_of_merge plain
  have merges : Tree.merge .refusing queue queueing = .ok queued := by with_unfolding_all rfl
  have reads : Patch.ofTree queueing = .ok queueingPatch := by with_unfolding_all rfl
  have settles : queueingPatch.Everywhere Patch.ScriptSettles := by
    refine .intro trivial fun c member => ?_
    obtain rfl := List.mem_singleton.mp member
    refine .intro (fun _ _ _ => .inr (.inl ⟨_, List.mem_cons_self, by decide⟩)) fun c member => ?_
    obtain rfl := List.mem_singleton.mp member
    exact .intro trivial nofun
  have loose : ¬ disguisedPayload.Settles := by
    have token : Position.isToken (Position.token 0) = true := by decide
    simp [KeyedPatch.Settles, disguisedPayload, token]
  have leaves : node .refusing (.edits [.insert 0 none] disguisedPayload) (Focus.root.atKey "queue")
      queue = .ok disguised := by with_unfolding_all rfl
  exact ⟨⟨merges, kept _ _ _ _ (by decide) reads settles merges⟩, loose, leaves,
    leaks _ _ _ _ _ _ loose rfl leaves⟩

end Queue

end Merge

end ConfigSweep
