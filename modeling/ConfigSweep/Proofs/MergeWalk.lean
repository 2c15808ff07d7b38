import ConfigSweep.Proofs.BareFailures
import ConfigSweep.Proofs.IndexedMerge
import ConfigSweep.Proofs.NestedPatch
import ConfigSweep.Proofs.Walk

/-!
# The visits of a merge

A merge visits nodes: each visit merges a patch at a focus into a root. A visit enters others after
all that it does before them succeeded, and hands its own root on to them. Groups and upserts are
visited at the node itself, items that a script makes from its payload without a visit of their own.
-/

namespace ConfigSweep

namespace Edit

/-- The instruction leaves an item to the payload: its position, and the root then. -/
inductive LeavesItem (focus : Focus) (items : List Tree) (root : Tree) :
    Edit → Nat → Tree → Prop where
  | insert {requested : Int} {position : Nat} {changed : Tree}
      (finds : Position.forInsertion requested items.length = .ok position)
      (writes : focus.write (.list (items.insertIdx position .null)) root = .ok changed) :
      LeavesItem focus items root (.insert requested none) position changed
  | overwrite {requested : Int} {position : Nat}
      (finds : Position.ofItem requested items.length = .ok position) :
      LeavesItem focus items root (.overwrite requested none) position root

variable {evaluator : Evaluator} {payload : PayloadMerge} {focus : Focus} {items : List Tree}
  {root : Tree} {edit : Edit}

theorem apply_of_leavesItem {position : Nat} {changed : Tree}
    (leaves : edit.LeavesItem focus items root position changed) :
    edit.apply evaluator payload focus items root = payload (focus.atIndex position) changed := by
  cases leaves with
  | insert finds writes =>
    rw [apply, finds]
    dsimp only [bind, Except.bind]
    rw [writes]
  | overwrite finds =>
    rw [apply, finds]
    rfl

/-- An instruction fails without a place, or as the payload does at the item that it is left. -/
theorem apply_eq_error (bare : evaluator.Bare) {f : Failure}
    (failed : edit.apply evaluator payload focus items root = .error f) :
    f.place = none ∨ ∃ position changed, edit.LeavesItem focus items root position changed ∧
      payload (focus.atIndex position) changed = .error f := by
  cases edit with
  | insert requested value =>
    rcases bind_eq_error.mp failed with early | ⟨position, finds, failed⟩
    · exact .inl (Position.forInsertion_bare _ _ f early)
    · cases value with
      | some value =>
        exact .inl (Outcome.Bare.bind (value.compute_bare bare root)
          (fun _ => focus.write_bare _ _) f failed)
      | none =>
        rcases bind_eq_error.mp failed with early | ⟨changed, writes, failed⟩
        · exact .inl (focus.write_bare _ _ f early)
        · exact .inr ⟨position, changed, .insert finds writes, failed⟩
  | overwrite requested value =>
    rcases bind_eq_error.mp failed with early | ⟨position, finds, failed⟩
    · exact .inl (Position.ofItem_bare _ _ f early)
    · cases value with
      | some value =>
        exact .inl (Outcome.Bare.bind (value.compute_bare bare root)
          (fun _ => focus.write_bare _ _) f failed)
      | none => exact .inr ⟨position, root, .overwrite finds, failed⟩
  | remove requested =>
    exact .inl (Outcome.Bare.bind (Position.ofItem_bare _ _)
      (fun _ => focus.write_bare _ _) f failed)

end Edit

namespace Merge

/-- A call of `node`: a patch that is merged at a focus into a root. -/
structure Visit where
  patch : Patch
  focus : Focus
  root : Tree

variable (evaluator : Evaluator)

section Runs

variable {evaluator} {focus : Focus} {root : Tree} {f : Failure}

theorem items_eq_foldlM (ps : List Patch) (position : Nat) (focus : Focus) (root : Tree) :
    items evaluator ps position focus root = (ps.zipIdx position).foldlM
      (fun root e => node evaluator e.1 (focus.atIndex e.2) root) root := by
  induction ps generalizing position root with
  | nil => rfl
  | cons p rest ih =>
    rw [items, List.zipIdx_cons, List.foldlM_cons]
    exact bind_congr fun root => ih (position + 1) root

theorem ordered_eq_foldlM (upserts : List (Option String × Patch)) (place : Nat) (focus : Focus)
    (root : Tree) :
    ordered evaluator upserts place focus root = (upserts.zipIdx place).foldlM
      (fun root e => node evaluator e.1.2 (focus.under (KeyedPatch.upsertLabel e.2 e.1.1)) root)
      root := by
  induction upserts generalizing place root with
  | nil => rfl
  | cons u rest ih =>
    rw [ordered, List.zipIdx_cons, List.foldlM_cons]
    exact bind_congr fun root => ih (place + 1) root

theorem revisits_eq_foldlM (groups : List (String × Patch)) (focus : Focus) (root : Tree) :
    revisits evaluator groups focus root
      = groups.foldlM (fun root e => node evaluator e.2 (focus.under e.1) root) root := by
  induction groups generalizing root with
  | nil => rfl
  | cons e rest ih =>
    rw [revisits, List.foldlM_cons]
    exact bind_congr ih

theorem values_eq_foldlM (entries : List (String × Patch)) (focus : Focus) (root : Tree) :
    values evaluator entries focus root = entries.foldlM (fun root e =>
      ensureKey focus e.1 root >>= fun root => node evaluator e.2 (focus.atKey e.1) root) root := by
  induction entries generalizing root with
  | nil => rfl
  | cons e rest ih =>
    rw [values, List.foldlM_cons, bind_assoc]
    exact bind_congr fun root => bind_congr ih

theorem slots_eq_foldlM (slots : List (Nat × Patch)) (length : Nat) (focus : Focus) (root : Tree) :
    Merge.slots evaluator slots length focus root = slots.foldlM (fun root slot =>
      if length ≤ slot.1 then fail (SparseList.gap slot.1 length)
      else node evaluator slot.2 (focus.atIndex slot.1) root) root := by
  induction slots generalizing root with
  | nil => rfl
  | cons slot rest ih =>
    rw [Merge.slots, List.foldlM_cons]
    split
    · rfl
    · exact bind_congr ih

theorem run_eq_foldlM (script : Script) (payload : PayloadMerge) (focus : Focus) (root : Tree) :
    script.run evaluator payload focus root = script.foldlM (fun root edit =>
      focus.items root >>= fun items => edit.apply evaluator payload focus items root) root := by
  induction script generalizing root with
  | nil => rfl
  | cons edit rest ih =>
    rw [Script.run, List.foldlM_cons, bind_assoc]
    exact bind_congr fun items => bind_congr ih

end Runs

section Failing

variable {evaluator} {focus : Focus} {root : Tree} {f : Failure}

theorem items_eq_error_iff {ps : List Patch} :
    items evaluator ps 0 focus root = .error f ↔ ∃ before p after reached,
      ps = before ++ p :: after ∧ items evaluator before 0 focus root = .ok reached ∧
        node evaluator p (focus.atIndex before.length) reached = .error f := by
  simp only [items_eq_foldlM, foldlM_zipIdx_eq_error, Nat.zero_add]

theorem ordered_eq_error_iff {upserts : List (Option String × Patch)} :
    ordered evaluator upserts 0 focus root = .error f ↔ ∃ before u after reached,
      upserts = before ++ u :: after ∧ ordered evaluator before 0 focus root = .ok reached ∧
        node evaluator u.2 (focus.under (KeyedPatch.upsertLabel before.length u.1)) reached
          = .error f := by
  simp only [ordered_eq_foldlM, foldlM_zipIdx_eq_error, Nat.zero_add]

theorem revisits_eq_error_iff {groups : List (String × Patch)} :
    revisits evaluator groups focus root = .error f ↔ ∃ before e after reached,
      groups = before ++ e :: after ∧ revisits evaluator before focus root = .ok reached ∧
        node evaluator e.2 (focus.under e.1) reached = .error f := by
  simp only [revisits_eq_foldlM, foldlM_eq_error]

theorem values_eq_error_iff {entries : List (String × Patch)} :
    values evaluator entries focus root = .error f ↔ ∃ before e after reached,
      entries = before ++ e :: after ∧ values evaluator before focus root = .ok reached ∧
        (ensureKey focus e.1 reached >>= fun root => node evaluator e.2 (focus.atKey e.1) root)
          = .error f := by
  simp only [values_eq_foldlM, foldlM_eq_error]

theorem slots_eq_error_iff {slots : List (Nat × Patch)} {length : Nat} :
    Merge.slots evaluator slots length focus root = .error f ↔ ∃ before slot after reached,
      slots = before ++ slot :: after ∧
      Merge.slots evaluator before length focus root = .ok reached ∧
        (if length ≤ slot.1 then fail (SparseList.gap slot.1 length)
          else node evaluator slot.2 (focus.atIndex slot.1) reached) = .error f := by
  simp only [slots_eq_foldlM, foldlM_eq_error]

theorem run_eq_error_iff {script : Script} {payload : PayloadMerge} :
    script.run evaluator payload focus root = .error f ↔ ∃ before edit after reached,
      script = before ++ edit :: after ∧
      Script.run evaluator payload focus before root = .ok reached ∧
        (focus.items reached >>= fun items => edit.apply evaluator payload focus items reached)
          = .error f := by
  simp only [run_eq_foldlM, foldlM_eq_error]

end Failing

section Visits

/-- The visits that the merge of a keyed patch enters: those of its entries, its groups and its
upserts, in this order. -/
inductive KeyedEnters : KeyedPatch Patch → Focus → Tree → Visit → Prop where
  | entry {before after groups : List (String × Patch)} {upserts : List (Option String × Patch)}
      {key : String} {p : Patch} {focus : Focus} {root opened reached present : Tree}
      (opens : openMapping focus (before ++ (key, p) :: after).isEmpty root = .ok opened)
      (done : values evaluator before focus opened = .ok reached)
      (ensures : ensureKey focus key reached = .ok present) :
      KeyedEnters ⟨before ++ (key, p) :: after, groups, upserts⟩ focus root
        ⟨p, focus.atKey key, present⟩
  | group {entries before after : List (String × Patch)} {upserts : List (Option String × Patch)}
      {key : String} {p : Patch} {focus : Focus} {root opened filled reached : Tree}
      (opens : openMapping focus entries.isEmpty root = .ok opened)
      (fills : values evaluator entries focus opened = .ok filled)
      (done : revisits evaluator before focus filled = .ok reached) :
      KeyedEnters ⟨entries, before ++ (key, p) :: after, upserts⟩ focus root
        ⟨p, focus.under key, reached⟩
  | upsert {entries groups : List (String × Patch)} {before after : List (Option String × Patch)}
      {key : Option String} {p : Patch} {focus : Focus}
      {root opened filled revisited reached : Tree}
      (opens : openMapping focus entries.isEmpty root = .ok opened)
      (fills : values evaluator entries focus opened = .ok filled)
      (revisit : revisits evaluator groups focus filled = .ok revisited)
      (done : ordered evaluator before 0 focus revisited = .ok reached) :
      KeyedEnters ⟨entries, groups, before ++ (key, p) :: after⟩ focus root
        ⟨p, focus.under (KeyedPatch.upsertLabel before.length key), reached⟩

/-- A visit enters another: everything that it does before has succeeded. -/
inductive Enters : Visit → Visit → Prop where
  | item {before after : List Patch} {p : Patch} {focus : Focus} {root opened reached : Tree}
      (opens : openList focus (before ++ p :: after).length root = .ok opened)
      (done : items evaluator before 0 focus opened = .ok reached) :
      Enters ⟨.list (before ++ p :: after), focus, root⟩
        ⟨p, focus.atIndex before.length, reached⟩
  | slot {before after : List (Nat × Patch)} {position length : Nat} {p : Patch} {focus : Focus}
      {root opened reached : Tree}
      (opens : openSlots focus ⟨before ++ (position, p) :: after⟩ root = .ok (length, opened))
      (done : Merge.slots evaluator before length focus opened = .ok reached)
      (within : position < length) :
      Enters ⟨.sparse ⟨before ++ (position, p) :: after⟩, focus, root⟩
        ⟨p, focus.atIndex position, reached⟩
  | payload {before after : Script} {edit : Edit} {payload : KeyedPatch Patch} {focus : Focus}
      {root opened reached changed : Tree} {list : List Tree} {position : Nat} {inner : Visit}
      (opens : openScript focus root = .ok opened)
      (done : Script.run evaluator (fun focus root => Merge.keyed evaluator payload focus root)
        focus before opened = .ok reached)
      (reads : focus.items reached = .ok list)
      (leaves : edit.LeavesItem focus list reached position changed)
      (enters : KeyedEnters evaluator payload (focus.atIndex position) changed inner) :
      Enters ⟨.edits (before ++ edit :: after) payload, focus, root⟩ inner
  | keyed {patch : KeyedPatch Patch} {focus : Focus} {root : Tree} {inner : Visit}
      (enters : KeyedEnters evaluator patch focus root inner) :
      Enters ⟨.keyed patch, focus, root⟩ inner

/-- What a visit does to its node before it is settled. -/
def dispatch : Patch → Focus → Tree → Outcome Tree
  | .scalar value, focus, root => focus.write value root
  | .fromRoot call, focus, root => do
      let value ← evaluator call root
      focus.write value root
  | .fromPrevious call, focus, root => do
      let previous ← focus.read root
      let value ← evaluator call previous
      focus.write value root
  | .list patches, focus, root => do
      let root ← openList focus patches.length root
      items evaluator patches 0 focus root
  | .sparse slots, focus, root => do
      let (length, root) ← openSlots focus slots root
      sparse evaluator slots length focus root
  | .edits script payload, focus, root => do
      let root ← openScript focus root
      script.run evaluator (fun focus root => keyed evaluator payload focus root) focus root
  | .keyed patch, focus, root => keyed evaluator patch focus root

theorem node_eq_settle (p : Patch) (focus : Focus) (root : Tree) :
    node evaluator p focus root = settle focus p (dispatch evaluator p focus root) := by
  cases p <;> rw [node, dispatch]

/-- The visits of a merge. -/
def walk : Walk Visit Tree where
  Enters := Enters evaluator
  trail visit := visit.focus.trail
  patch visit := visit.patch.toTree
  work visit :=
    (dispatch evaluator visit.patch visit.focus visit.root).bind visit.focus.reveal

theorem run_walk (visit : Visit) :
    (walk evaluator).run visit = node evaluator visit.patch visit.focus visit.root :=
  (node_eq_settle evaluator _ _ _).symm

end Visits

section Laws

variable {evaluator} {focus : Focus} {root : Tree} {f : Failure}

theorem keyed_of_enters {patch : KeyedPatch Patch} {inner : Visit}
    (enters : KeyedEnters evaluator patch focus root inner)
    (failed : (walk evaluator).run inner = .error f) :
    keyed evaluator patch focus root = .error f := by
  rw [run_walk] at failed
  cases enters with
  | entry opens done ensures =>
    refine bind_eq_error.mpr (.inr ⟨_, opens, bind_eq_error.mpr (.inl ?_)⟩)
    exact values_eq_error_iff.mpr ⟨_, _, _, _, rfl, done,
      bind_eq_error.mpr (.inr ⟨_, ensures, failed⟩)⟩
  | group opens fills done =>
    refine bind_eq_error.mpr (.inr ⟨_, opens, bind_eq_error.mpr (.inr ⟨_, fills, ?_⟩)⟩)
    exact bind_eq_error.mpr (.inl (revisits_eq_error_iff.mpr ⟨_, _, _, _, rfl, done, failed⟩))
  | upsert opens fills revisit done =>
    refine bind_eq_error.mpr (.inr ⟨_, opens, bind_eq_error.mpr (.inr ⟨_, fills, ?_⟩)⟩)
    refine bind_eq_error.mpr (.inr ⟨_, revisit, ?_⟩)
    exact ordered_eq_error_iff.mpr ⟨_, _, _, _, rfl, done, failed⟩

theorem keyed_eq_error {patch : KeyedPatch Patch}
    (failed : keyed evaluator patch focus root = .error f) :
    f.place = none ∨ ∃ inner, KeyedEnters evaluator patch focus root inner ∧
      (walk evaluator).run inner = .error f := by
  simp only [run_walk]
  obtain ⟨entries, groups, upserts⟩ := patch
  rcases bind_eq_error.mp failed with early | ⟨opened, opens, failed⟩
  · exact .inl (openMapping_bare _ _ _ f early)
  rcases bind_eq_error.mp failed with inEntry | ⟨filled, fills, failed⟩
  · obtain ⟨before, ⟨key, p⟩, after, reached, rfl, done, failed⟩ := values_eq_error_iff.mp inEntry
    rcases bind_eq_error.mp failed with early | ⟨present, ensures, failed⟩
    · exact .inl (ensureKey_bare _ _ _ f early)
    · exact .inr ⟨_, .entry opens done ensures, failed⟩
  rcases bind_eq_error.mp failed with inGroup | ⟨revisited, revisit, inUpsert⟩
  · obtain ⟨before, ⟨key, p⟩, after, reached, rfl, done, failed⟩ := revisits_eq_error_iff.mp inGroup
    exact .inr ⟨_, .group opens fills done, failed⟩
  · obtain ⟨before, ⟨key, p⟩, after, reached, rfl, done, failed⟩ := ordered_eq_error_iff.mp inUpsert
    exact .inr ⟨_, .upsert opens fills revisit done, failed⟩

theorem dispatch_of_enters {outer inner : Visit} (enters : Enters evaluator outer inner)
    (failed : (walk evaluator).run inner = .error f) :
    dispatch evaluator outer.patch outer.focus outer.root = .error f := by
  cases enters with
  | item opens done =>
    rw [run_walk] at failed
    refine bind_eq_error.mpr (.inr ⟨_, opens, ?_⟩)
    exact items_eq_error_iff.mpr ⟨_, _, _, _, rfl, done, failed⟩
  | slot opens done within =>
    rw [run_walk] at failed
    refine bind_eq_error.mpr (.inr ⟨_, opens, ?_⟩)
    refine slots_eq_error_iff.mpr ⟨_, _, _, _, rfl, done, ?_⟩
    rw [if_neg (Nat.not_le_of_lt within)]
    exact failed
  | payload opens done reads leaves enters =>
    refine bind_eq_error.mpr (.inr ⟨_, opens, ?_⟩)
    refine run_eq_error_iff.mpr ⟨_, _, _, _, rfl, done, bind_eq_error.mpr (.inr ⟨_, reads, ?_⟩)⟩
    rw [Edit.apply_of_leavesItem leaves]
    exact keyed_of_enters enters failed
  | keyed enters => exact keyed_of_enters enters failed

theorem dispatch_eq_error (bare : evaluator.Bare) {visit : Visit}
    (failed : dispatch evaluator visit.patch visit.focus visit.root = .error f) :
    f.place = none ∨ ∃ inner, Enters evaluator visit inner ∧
      (walk evaluator).run inner = .error f := by
  obtain ⟨patch, focus, root⟩ := visit
  cases patch with
  | scalar value => exact .inl (focus.write_bare _ _ f failed)
  | fromRoot call =>
    exact .inl (Outcome.Bare.bind (bare call root) (fun _ => focus.write_bare _ _) f failed)
  | fromPrevious call =>
    exact .inl (Outcome.Bare.bind (focus.read_bare root) (fun previous =>
      .bind (bare call previous) fun _ => focus.write_bare _ _) f failed)
  | list patches =>
    rcases bind_eq_error.mp failed with early | ⟨opened, opens, failed⟩
    · exact .inl (openList_bare _ _ _ f early)
    · obtain ⟨before, p, after, reached, rfl, done, failed⟩ := items_eq_error_iff.mp failed
      exact .inr ⟨_, .item opens done, (run_walk evaluator _).trans failed⟩
  | sparse slots =>
    obtain ⟨slots⟩ := slots
    rcases bind_eq_error.mp failed with early | ⟨⟨length, opened⟩, opens, failed⟩
    · exact .inl (openSlots_bare _ _ _ f early)
    · obtain ⟨before, ⟨position, p⟩, after, reached, rfl, done, failed⟩ :=
        slots_eq_error_iff.mp failed
      split at failed
      · exact .inl (Outcome.Bare.fail _ f failed)
      · next within =>
        exact .inr ⟨_, .slot opens done (Nat.lt_of_not_le within),
          (run_walk evaluator _).trans failed⟩
  | edits script payload =>
    rcases bind_eq_error.mp failed with early | ⟨opened, opens, failed⟩
    · exact .inl (openScript_bare _ _ f early)
    obtain ⟨before, edit, after, reached, rfl, done, failed⟩ := run_eq_error_iff.mp failed
    rcases bind_eq_error.mp failed with early | ⟨list, reads, failed⟩
    · exact .inl (focus.items_bare _ f early)
    rcases Edit.apply_eq_error bare failed with own | ⟨position, changed, leaves, failed⟩
    · exact .inl own
    rcases keyed_eq_error failed with own | ⟨inner, enters, failed⟩
    · exact .inl own
    · exact .inr ⟨inner, .payload opens done reads leaves enters, failed⟩
  | keyed patch =>
    rcases keyed_eq_error failed with own | ⟨inner, enters, failed⟩
    · exact .inl own
    · exact .inr ⟨inner, .keyed enters, failed⟩

theorem patch_of_keyedEnters {patch : KeyedPatch Patch} {inner : Visit}
    (enters : KeyedEnters evaluator patch focus root inner) : inner.patch ∈ patch.patches := by
  rw [KeyedPatch.mem_patches]
  cases enters with
  | entry => exact .inl ⟨_, List.mem_append_cons_self, rfl⟩
  | group => exact .inr (.inl ⟨_, List.mem_append_cons_self, rfl⟩)
  | upsert => exact .inr (.inr ⟨_, List.mem_append_cons_self, rfl⟩)

/-- The patch of an entered visit is one of those that the patch is made of. -/
theorem patch_of_enters {outer inner : Visit} (enters : Enters evaluator outer inner) :
    inner.patch ∈ outer.patch.children := by
  cases enters with
  | item => exact List.mem_append_cons_self
  | slot => exact List.mem_map_of_mem List.mem_append_cons_self
  | payload opens done reads leaves enters => exact patch_of_keyedEnters enters
  | keyed enters => exact patch_of_keyedEnters enters

/-- If calls fail without a place, the failures of a merge get theirs from its visits. -/
theorem lawful_walk (bare : evaluator.Bare) : (walk evaluator).Lawful where
  ends := by
    have children : WellFounded fun inner outer : Patch => inner ∈ outer.children :=
      ⟨Patch.children_induction fun p below => ⟨p, below⟩⟩
    exact Subrelation.wf patch_of_enters (InvImage.wf Visit.patch children)
  passes enters failed := bind_eq_error.mpr (.inl (dispatch_of_enters enters failed))
  arises failed := by
    rcases bind_eq_error.mp failed with inside | ⟨merged, -, settling⟩
    · exact dispatch_eq_error bare inside
    · exact .inl (Focus.reveal_bare _ _ _ settling)

end Laws

end Merge

end ConfigSweep
