import ConfigSweep.Proofs.PatchForm

/-!
# Printed patches

The tree that a patch is printed as can always be read, and is read as the same patch with one
exception. A keyed patch without groups and upserts whose keys all stand for positions was told from
a list in disguise by a directive without upserts. The directive is not printed, so that the patch is
read as patches at the positions instead.
-/

namespace ConfigSweep

/-- Values under keys are left alone exactly where none of them changes. -/
theorem map_values_eq_self_iff {κ α : Type} {f : α → α} {es : List (κ × α)} :
    es.map (fun e => (e.1, f e.2)) = es ↔ ∀ a ∈ es.map Prod.snd, f a = a := by
  conv_lhs => rhs; rw [← List.map_id es]
  rw [List.map_inj_left, List.forall_mem_map]
  exact forall₂_congr fun e _ => by rw [id, Prod.ext_iff, and_iff_right rfl]

namespace KeyedPatch

variable {α β : Type}

/-- The same keys with other patches. -/
def map (f : α → β) (patch : KeyedPatch α) : KeyedPatch β where
  entries := patch.entries.map fun e => (e.1, f e.2)
  groups := patch.groups.map fun e => (e.1, f e.2)
  upserts := patch.upserts.map fun u => (u.1, f u.2)

/-- Printed, the patch is a list in disguise. -/
def isDisguised (patch : KeyedPatch α) : Bool :=
  Mapping.isPositional patch.entries && patch.groups.isEmpty && patch.upserts.isEmpty

/-- Nothing changes exactly where no patch does. -/
theorem map_eq_self_iff {f : α → α} {patch : KeyedPatch α} :
    patch.map f = patch ↔ ∀ a ∈ patch.patches, f a = a := by
  obtain ⟨entries, groups, upserts⟩ := patch
  rw [map, KeyedPatch.mk.injEq, map_values_eq_self_iff, map_values_eq_self_iff,
    map_values_eq_self_iff, patches, List.forall_mem_append, List.forall_mem_append, and_assoc]

theorem isDisguised_iff {patch : KeyedPatch α} : patch.isDisguised = true ↔
    Mapping.isPositional patch.entries = true ∧ patch.groups = [] ∧ patch.upserts = [] := by
  simp [isDisguised, and_assoc]

theorem isDisguised_map (f : α → β) (patch : KeyedPatch α) :
    (patch.map f).isDisguised = patch.isDisguised := by
  unfold isDisguised map
  rw [Mapping.isPositional_of_perm (.of_eq (Mapping.keys_map_values f _)), List.isEmpty_map,
    List.isEmpty_map]

theorem map_listed (f : α → β) (as : List α) :
    (as.map fun a => ((none : Option String), a)).map (fun u => (u.1, f u.2))
      = (as.map f).map fun b => (none, b) := by
  rw [List.map_map, List.map_map]
  rfl

theorem map_named (f : α → β) (named : Mapping α) :
    (named.map fun n => (some n.1, n.2)).map (fun u => (u.1, f u.2))
      = (named.map fun n => (n.1, f n.2)).map fun n => (some n.1, n.2) := by
  rw [List.map_map, List.map_map]
  rfl

theorem OrderedUpserts.map {upserts : List (Option String × α)} (ordered : OrderedUpserts upserts)
    (f : α → β) : OrderedUpserts (upserts.map fun u => (u.1, f u.2)) := by
  cases ordered with
  | listed as =>
    rw [map_listed]
    exact .listed _
  | named named once ordered =>
    rw [map_named]
    refine .named _ (Mapping.keys_map_values f named ▸ once) ?_
    rw [Mapping.byPosition_map, ordered]

theorem WellKeyed.map {patch : KeyedPatch α} (well : patch.WellKeyed) (f : α → β) :
    (patch.map f).WellKeyed where
  once := by
    rw [KeyedPatch.map, ← List.map_append, Mapping.keys_map_values]
    exact well.once
  plain := Mapping.keys_map_values f patch.entries ▸ well.plain
  groups := Mapping.keys_map_values f patch.groups ▸ well.groups
  sorted := List.pairwise_map.mpr well.sorted
  upserts := well.upserts.map f

end KeyedPatch

namespace Patch

mutual

/-- The patch that is read of what the patch is printed as. -/
def reread : Patch → Patch
  | .scalar value => .scalar value
  | .fromPrevious call => .fromPrevious call
  | .fromRoot call => .fromRoot call
  | .list items => .list (rereadItems items)
  | .sparse slots => .sparse (rereadSparse slots)
  | .edits script payload => .edits script (rereadKeyed payload)
  | .keyed patch =>
    if patch.isDisguised then .sparse (.ofEntries (rereadKeyed patch).entries)
    else .keyed (rereadKeyed patch)

def rereadItems : List Patch → List Patch
  | [] => []
  | p :: ps => p.reread :: rereadItems ps

def rereadSparse : SparseList Patch → SparseList Patch
  | ⟨slots⟩ => ⟨rereadSlots slots⟩

def rereadSlots : List (Nat × Patch) → List (Nat × Patch)
  | [] => []
  | (position, p) :: rest => (position, p.reread) :: rereadSlots rest

def rereadKeyed : KeyedPatch Patch → KeyedPatch Patch
  | ⟨entries, groups, upserts⟩ =>
    ⟨rereadNamed entries, rereadNamed groups, rereadUpserts upserts⟩

def rereadNamed : List (String × Patch) → List (String × Patch)
  | [] => []
  | (key, p) :: rest => (key, p.reread) :: rereadNamed rest

def rereadUpserts : List (Option String × Patch) → List (Option String × Patch)
  | [] => []
  | (key, p) :: rest => (key, p.reread) :: rereadUpserts rest

end

section Equations

theorem rereadItems_eq (items : List Patch) : rereadItems items = items.map reread := by
  induction items with
  | nil => rfl
  | cons p ps ih => rw [rereadItems, ih, List.map_cons]

theorem rereadSlots_eq (slots : List (Nat × Patch)) :
    rereadSlots slots = slots.map fun slot => (slot.1, slot.2.reread) := by
  induction slots with
  | nil => rfl
  | cons slot rest ih => rw [rereadSlots, ih, List.map_cons]

theorem rereadNamed_eq (named : List (String × Patch)) :
    rereadNamed named = named.map fun e => (e.1, e.2.reread) := by
  induction named with
  | nil => rfl
  | cons e rest ih => rw [rereadNamed, ih, List.map_cons]

theorem rereadUpserts_eq (upserts : List (Option String × Patch)) :
    rereadUpserts upserts = upserts.map fun u => (u.1, u.2.reread) := by
  induction upserts with
  | nil => rfl
  | cons u rest ih => rw [rereadUpserts, ih, List.map_cons]

theorem rereadKeyed_eq (patch : KeyedPatch Patch) : rereadKeyed patch = patch.map reread := by
  obtain ⟨entries, groups, upserts⟩ := patch
  rw [rereadKeyed, rereadNamed_eq, rereadNamed_eq, rereadUpserts_eq]
  rfl

theorem itemTrees_eq (items : List Patch) : itemTrees items = items.map toTree := by
  induction items with
  | nil => rfl
  | cons p ps ih => rw [itemTrees, ih, List.map_cons]

theorem positionTrees_eq (slots : List (Nat × Patch)) :
    positionTrees slots = slots.map fun slot => (slot.1, slot.2.toTree) := by
  induction slots with
  | nil => rfl
  | cons slot rest ih => rw [positionTrees, ih, List.map_cons]

theorem namedTrees_eq (named : List (String × Patch)) :
    namedTrees named = named.map fun e => (e.1, e.2.toTree) := by
  induction named with
  | nil => rfl
  | cons e rest ih => rw [namedTrees, ih, List.map_cons]

theorem upsertTrees_eq (upserts : List (Option String × Patch)) :
    upsertTrees upserts = upserts.map fun u => (u.1, u.2.toTree) := by
  induction upserts with
  | nil => rfl
  | cons u rest ih => rw [upsertTrees, ih, List.map_cons]

theorem keyedTrees_eq (patch : KeyedPatch Patch) : keyedTrees patch
    = keyedEntries (patch.map toTree).entries (patch.map toTree).groups (patch.map toTree).upserts := by
  obtain ⟨entries, groups, upserts⟩ := patch
  rw [keyedTrees, namedTrees_eq, namedTrees_eq, upsertTrees_eq]
  rfl

end Equations

/-- The patch is a keyed patch that is printed as a list in disguise. -/
def isDisguised : Patch → Bool
  | .keyed patch => patch.isDisguised
  | _ => false

theorem reread_ne_self {p : Patch} (disguised : p.isDisguised = true) : p.reread ≠ p := by
  cases p with
  | keyed patch =>
    rw [isDisguised] at disguised
    rw [reread, if_pos disguised]
    nofun
  | _ => cases disguised

/-- Apart from disguises a patch is read again when the patches within it are. -/
theorem reread_eq_self_iff_children {p : Patch} (plain : p.isDisguised = false) :
    p.reread = p ↔ ∀ c ∈ p.children, c.reread = c := by
  cases p with
  | list items =>
    rw [reread, Patch.list.injEq, rereadItems_eq]
    conv_lhs => rhs; rw [← List.map_id items]
    exact List.map_inj_left
  | sparse slots =>
    obtain ⟨slots⟩ := slots
    rw [reread, Patch.sparse.injEq, rereadSparse, SparseList.mk.injEq, rereadSlots_eq]
    exact map_values_eq_self_iff
  | edits script payload =>
    rw [reread, Patch.edits.injEq, rereadKeyed_eq, and_iff_right rfl]
    exact KeyedPatch.map_eq_self_iff
  | keyed patch =>
    rw [isDisguised] at plain
    rw [reread, rereadKeyed_eq, if_neg (Bool.eq_false_iff.mp plain), Patch.keyed.injEq]
    exact KeyedPatch.map_eq_self_iff
  | _ => exact iff_of_true rfl (List.forall_mem_nil _)

/-- What is read of the printed patch is the patch exactly when nothing in it is disguised. -/
theorem reread_eq_self_iff (p : Patch) :
    p.reread = p ↔ p.Everywhere fun q => q.isDisguised = false := by
  induction p using children_induction with
  | node p ih =>
    constructor
    · intro same
      have plain := Bool.eq_false_iff.mpr fun disguised => reread_ne_self disguised same
      have within := (reread_eq_self_iff_children plain).mp same
      exact .intro plain fun c member => (ih c member).mp (within c member)
    · rintro ⟨plain, within⟩
      exact (reread_eq_self_iff_children plain).mpr fun c member => (ih c member).mpr (within c member)

end Patch

/-- The node has an upsert directive without upserts. -/
def Tree.upsertsNothing (t : Tree) : Bool :=
  match t.field? Keyword.upsert with
  | some (.list []) => true
  | some (.mapping []) => true
  | _ => false

section Printed

open Patch

namespace KeyedPatch

/-- The entry of the upserts, if there are any. -/
def directive (patch : KeyedPatch Tree) : Mapping Tree :=
  if patch.upserts.isEmpty then [] else [(Keyword.upsert, upsertsTree patch.upserts)]

/-- The entries of the mapping that the patch is printed as. -/
abbrev printed (patch : KeyedPatch Tree) : Mapping Tree :=
  patch.entries ++ patch.groups ++ patch.directive

namespace WellKeyed

variable {α : Type} {patch : KeyedPatch α} {shown : KeyedPatch Tree}

theorem absent (well : patch.WellKeyed) : ∀ key ∈
    [Keyword.eval, Keyword.sweep, Keyword.operations, Keyword.upsert],
      key ∉ Mapping.keys (patch.entries ++ patch.groups) := by
  have single : ∀ key ∈ [Keyword.eval, Keyword.sweep, Keyword.operations, Keyword.upsert],
      Keyword.isGroup key = false := by
    decide
  intro key reserved member
  rcases List.mem_append.mp (Mapping.keys_append _ _ ▸ member) with plain | group
  · exact (well.plain key plain).2 reserved
  · have named := well.groups key group
    rw [single key reserved] at named
    cases named

theorem keyedEntries_eq (well : shown.WellKeyed) :
    keyedEntries shown.entries shown.groups shown.upserts = shown.printed := by
  unfold keyedEntries printed directive
  rw [Mapping.ofEntries_eq well.once]
  split
  · rw [List.append_nil]
  · exact Mapping.insert_of_absent _ (well.absent _ (by simp))

theorem absent_printed (well : shown.WellKeyed) :
    ∀ key ∈ [Keyword.eval, Keyword.sweep, Keyword.operations], key ∉ Mapping.keys shown.printed := by
  intro key reserved member
  rw [printed, Mapping.keys_append, List.mem_append] at member
  rcases member with before | last
  · exact well.absent key (List.mem_append_left [Keyword.upsert] reserved) before
  · unfold directive at last
    split at last
    · cases last
    · obtain rfl : key = Keyword.upsert := List.mem_singleton.mp last
      exact absurd reserved (by decide)

/-- The printed mapping is a list in disguise when the patch is. -/
theorem isPositional_printed (well : shown.WellKeyed) :
    Mapping.isPositional shown.printed = shown.isDisguised := by
  unfold isDisguised
  cases groups : shown.groups with
  | cons e rest =>
    have group : e.1 ∈ Mapping.keys shown.groups := groups ▸ List.mem_cons_self
    have member : e.1 ∈ Mapping.keys shown.printed := by
      rw [printed, Mapping.keys_append, Mapping.keys_append]
      exact List.mem_append_left _ (List.mem_append_right _ group)
    rw [Mapping.isPositional_of_key member (Position.isToken_of_isGroup (well.groups e.1 group))]
    simp
  | nil =>
    cases upserts : shown.upserts with
    | cons u rest =>
      have member : Keyword.upsert ∈ Mapping.keys shown.printed := by
        rw [printed, directive, upserts]
        simp
      rw [Mapping.isPositional_of_key member (by decide)]
      simp
    | nil => simp [printed, directive, groups, upserts]

end WellKeyed

end KeyedPatch

namespace Patch

/-- The parts that make a keyed patch. -/
def partsFor (patch : KeyedPatch Patch) : List Part :=
  patch.entries.map (fun e => .plain e.1 e.2) ++ patch.groups.map (fun e => .group e.1 e.2) ++
    if patch.upserts.isEmpty then [] else [.upserts patch.upserts]

theorem ofParts_partsFor {patch : KeyedPatch Patch}
    (sorted : patch.groups.Pairwise fun a b => a.1 ≤ b.1) : ofParts (partsFor patch) = patch := by
  obtain ⟨entries, groups, upserts⟩ := patch
  have inOrder : groups.Pairwise fun a b => decide (a.1 ≤ b.1) = true := sorted.imp decide_eq_true
  cases upserts <;>
    simp [partsFor, ofParts, List.filterMap_map, List.filterMap_cons, Function.comp_def, Part.plain?,
      Part.group?, Part.upserts?, List.mergeSort_of_pairwise inOrder]

theorem upsertsTree_listed {ts : List Tree} (filled : ts ≠ []) :
    upsertsTree (ts.map fun t => (none, t)) = .list ts := by
  obtain ⟨t, rest, rfl⟩ := List.exists_cons_of_ne_nil filled
  simp [upsertsTree, Function.comp_def]

theorem upsertsTree_named {named : Mapping Tree} (once : (Mapping.keys named).Nodup) :
    upsertsTree (named.map fun n => (some n.1, n.2)) = .mapping named := by
  simp [upsertsTree, Function.comp_def, Mapping.ofEntries_eq once]

/-- Upserts in order are read again. -/
theorem upsertsOf_upsertsTree {us : List (Option String × Patch)}
    (ordered : KeyedPatch.OrderedUpserts us)
    (filled : us ≠ []) (reads : ∀ u ∈ us, ofTree u.2.toTree = .ok u.2.reread) (trail : Trail) :
    upsertsOf (upsertsTree (us.map fun u => (u.1, u.2.toTree))) trail
      = .ok (us.map fun u => (u.1, u.2.reread)) := by
  cases ordered with
  | listed as =>
    rw [List.forall_mem_map] at reads
    have items : TreesFrom (as.map toTree) (as.map reread) := forall₂_map_map.mpr reads
    have filled' : as.map toTree ≠ [] := by
      simpa using filled
    rw [KeyedPatch.map_listed, KeyedPatch.map_listed, upsertsTree_listed filled']
    exact upsertsOf_iff.mpr (.items (ofItems_eq_ok.mpr items))
  | named named once ordered =>
    rw [List.forall_mem_map] at reads
    have values : NamedFrom trail.child (named.map fun n => (n.1, n.2.toTree))
        (named.map fun n => (n.1, n.2.reread)) :=
      forall₂_map_map.mpr fun n member => ⟨rfl, ofTreeAt_eq_ok.mpr (reads n member)⟩
    have once' := Mapping.keys_map_values toTree named ▸ once
    have inOrder : orderUpserts (named.map fun n => (n.1, n.2.reread))
        = (Mapping.byPosition (named.map fun n => (n.1, n.2.reread))).map fun n => (some n.1, n.2) := rfl
    rw [KeyedPatch.map_named, KeyedPatch.map_named, upsertsTree_named once']
    rw [upsertsOf_iff.mpr (.named values), inOrder, Mapping.byPosition_map, ordered]

section Keyed

variable {patch : KeyedPatch Patch}

/-- The entries of a printed patch are read as its parts. -/
theorem partsFrom_printed (well : patch.WellKeyed)
    (reads : ∀ p ∈ patch.patches, ofTree p.toTree = .ok p.reread) (trail : Trail) :
    PartsFrom trail (patch.map toTree).printed (partsFor (patch.map reread)) := by
  have reserved : ∀ e ∈ patch.entries, e.1 ≠ Keyword.upsert := by
    intro e member named
    exact (well.plain e.1 (Mapping.mem_keys_of_mem member)).2 (by simp [named])
  refine List.rel_append (List.rel_append ?_ ?_) ?_
  · dsimp only [KeyedPatch.map]
    rw [List.map_map]
    refine forall₂_map_map.mpr fun e member => ?_
    exact .plain _ (well.plain e.1 (Mapping.mem_keys_of_mem member)).1 (reserved e member)
      (ofTreeAt_eq_ok.mpr (reads _ (KeyedPatch.mem_patches_of_entry member)))
  · dsimp only [KeyedPatch.map]
    rw [List.map_map]
    refine forall₂_map_map.mpr fun e member => ?_
    exact .group _ (well.groups e.1 (Mapping.mem_keys_of_mem member))
      (ofTreeAt_eq_ok.mpr (reads _ (KeyedPatch.mem_patches_of_group member)))
  · unfold KeyedPatch.directive KeyedPatch.map
    dsimp only
    rw [List.isEmpty_map, List.isEmpty_map]
    split
    · exact .nil
    · next filled =>
      refine .cons (.upserts _ rfl ?_) .nil
      exact upsertsOf_upsertsTree well.upserts (by simpa using filled)
        (fun u member => reads _ (KeyedPatch.mem_patches_of_upsert member)) _

/-- Slots that are listed are read again. -/
theorem ofTree_printed_sparse {slots : SparseList Patch} (listed : slots.Listed)
    (reads : ∀ slot ∈ slots.slots, ofTree slot.2.toTree = .ok slot.2.reread) :
    ofTree (Patch.sparse slots).toTree = .ok (Patch.sparse slots).reread := by
  obtain ⟨slots⟩ := slots
  have shown : (Patch.sparse ⟨slots⟩).toTree
      = .mapping ((⟨slots⟩ : SparseList Patch).mapValues toTree).toMapping := by
    rw [toTree, slotTrees, positionTrees_eq, SparseList.mapValues]
  have again : (Patch.sparse ⟨slots⟩).reread
      = .sparse (.ofEntries ((⟨slots⟩ : SparseList Patch).mapValues reread).toMapping) := by
    rw [(listed.mapValues reread).ofEntries_toMapping, reread, rereadSparse, rereadSlots_eq,
      SparseList.mapValues]
  rw [shown, again]
  have positional := (listed.mapValues toTree).isPositional_toMapping
  refine ofTreeAt_iff.mpr (.sparse (reading_of_positional positional) ?_)
  unfold SparseList.toMapping SparseList.mapValues
  rw [List.map_map, List.map_map]
  exact forall₂_map_map.mpr fun slot member => ⟨rfl, ofTreeAt_eq_ok.mpr (reads slot member)⟩

theorem keyedTrees_eq_printed (well : patch.WellKeyed) :
    keyedTrees patch = (patch.map toTree).printed := by
  rw [keyedTrees_eq, (well.map toTree).keyedEntries_eq]

/-- A well keyed patch is read again, by its keys or by their positions. -/
theorem ofTree_printed_keyed (well : patch.WellKeyed)
    (reads : ∀ p ∈ patch.patches, ofTree p.toTree = .ok p.reread) :
    ofTree (Patch.keyed patch).toTree = .ok (Patch.keyed patch).reread := by
  have absent := (well.map toTree).absent_printed
  have positional := (well.map toTree).isPositional_printed
  rw [KeyedPatch.isDisguised_map] at positional
  rw [toTree, reread, rereadKeyed_eq, keyedTrees_eq_printed well]
  split
  · next disguised =>
    rw [disguised] at positional
    refine ofTreeAt_iff.mpr (.sparse (reading_of_positional positional) ?_)
    obtain ⟨-, groups, upserts⟩ := KeyedPatch.isDisguised_iff.mp disguised
    have alone : (patch.map toTree).printed = patch.entries.map fun e => (e.1, e.2.toTree) := by
      simp [KeyedPatch.printed, KeyedPatch.directive, KeyedPatch.map, groups, upserts]
    rw [alone]
    exact forall₂_map_map.mpr fun e member =>
      ⟨rfl, ofTreeAt_eq_ok.mpr (reads _ (KeyedPatch.mem_patches_of_entry member))⟩
  · next plain =>
    rw [Bool.not_eq_true] at plain
    rw [plain] at positional
    have kind : reading (patch.map toTree).printed = .keyed :=
      reading_eq_iff.mpr (.keyed (absent _ (by simp)) (absent _ (by simp)) (absent _ (by simp)) positional)
    refine (ofTreeAt_keyed_eq_ok kind).mpr ⟨_, partsFrom_printed well reads .root, ?_⟩
    rw [ofParts_partsFor (well.map reread).sorted]

/-- A script and its payload are read again. -/
theorem ofTree_printed_edits {script : Script}
    (edits : ∀ edit ∈ script, Edit.ofTree edit.toTree = .ok edit) (well : patch.WellKeyed)
    (reads : ∀ p ∈ patch.patches, ofTree p.toTree = .ok p.reread) :
    ofTree (Patch.edits script patch).toTree = .ok (Patch.edits script patch).reread := by
  have absent := (well.map toTree).absent_printed
  have appended := Mapping.insert_of_absent script.toTree (absent Keyword.operations (by simp))
  obtain ⟨kind, rest⟩ := reading_append_script absent
  rw [toTree, reread, rereadKeyed_eq, keyedTrees_eq_printed well, appended]
  refine (ofTreeAt_script_eq_ok kind).mpr ⟨script, Script.ofTree_toTree edits,
    partsFor (patch.map reread), ?_, ?_⟩
  · rw [rest]
    exact partsFrom_printed well reads .root
  · rw [ofParts_partsFor (well.map reread).sorted]

end Keyed

/-- What a patch that is as it is read is printed as is read as `reread`. -/
theorem ofTree_toTree {p : Patch} (read : p.Everywhere AsRead) : ofTree p.toTree = .ok p.reread := by
  induction read with
  | @intro p here within ih =>
    cases p with
    | scalar value => exact here
    | fromPrevious call =>
      rw [toTree, ofTree, ofTreeAt, located_eq_ok, ofText_embedded here.1 here.2, reread]
    | fromRoot call =>
      rw [toTree, Call.directive, ofTree, ofTreeAt, located_eq_ok]
      exact map_eq_ok.mpr ⟨call, call.ofTree_toTree, rfl⟩
    | list items =>
      rw [toTree, itemTrees_eq, reread, rereadItems_eq]
      exact ofTreeAt_iff.mpr (.list (ofItems_eq_ok.mpr (forall₂_map_map.mpr ih)))
    | sparse slots => exact ofTree_printed_sparse here (List.forall_mem_map.mp ih)
    | edits script payload => exact ofTree_printed_edits here.1 here.2 ih
    | keyed patch => exact ofTree_printed_keyed here ih

/-- Without groups and upserts the keys of the patch are those of its mapping. -/
theorem keys_of_declared {entries : Mapping Tree} {patch : KeyedPatch Patch}
    (declared : patch.DeclaredBy entries.plainEntries entries) (groups : patch.groups = [])
    (absent : Mapping.get? Keyword.upsert entries = none) :
    Mapping.keys patch.entries = Mapping.keys entries := by
  obtain ⟨sorted, moved, -, read⟩ := declared.groups
  rw [groups] at read
  obtain rfl := List.forall₂_nil_right_iff.mp read
  have single : ∀ e ∈ entries, Keyword.isGroup e.1 = false := by
    simpa using List.filter_eq_nil_iff.mp moved.nil_eq.symm
  have plain : entries.plainEntries = entries := by
    refine List.filter_eq_self.mpr fun e member => ?_
    have named : e.1 ≠ Keyword.upsert := fun same =>
      Mapping.get?_eq_none_iff.mp absent (same ▸ Mapping.mem_keys_of_mem member)
    simp [single e member, named]
  rw [keys_of_namedAs declared.entries, plain]

theorem nothing_of_upsertsFrom {directive : Tree} (read : UpsertsFrom (some directive) []) :
    directive = .list [] ∨ directive = .mapping [] := by
  generalize none' : ([] : List (Option String × Patch)) = us at read
  cases read with
  | listed read =>
    obtain rfl := List.map_eq_nil_iff.mp none'.symm
    exact .inl (congrArg Tree.list (List.forall₂_nil_right_iff.mp read))
  | named order read =>
    obtain rfl := List.map_eq_nil_iff.mp none'.symm
    obtain rfl := List.forall₂_nil_right_iff.mp read
    exact .inr (congrArg Tree.mapping order.perm.nil_eq.symm)

/-- A disguised patch was read of a mapping with a directive that has no upserts. -/
theorem upsertsNothing_of_isDisguised {t : Tree} {trail : Trail} {p : Patch} (distinct : t.Distinct)
    (done : ofTreeAt t trail = .ok p) (disguised : p.isDisguised = true) :
    t.upsertsNothing = true := by
  cases ofTreeAt_iff.mp done with
  | @keyed entries parts kind read =>
    obtain ⟨positional, groups, upserts⟩ := KeyedPatch.isDisguised_iff.mp disguised
    have declared := declaredBy_of_keyed distinct.1 done
    have directive := declared.upserts
    rw [upserts] at directive
    cases found : Mapping.get? Keyword.upsert entries with
    | some given =>
      rw [found] at directive
      have here : (Tree.mapping entries).field? Keyword.upsert = some given := found
      rw [Tree.upsertsNothing, here]
      rcases nothing_of_upsertsFrom directive with rfl | rfl <;> rfl
    | none =>
      have keys := keys_of_declared declared groups found
      rw [Mapping.isPositional_of_perm (.of_eq keys), isPositional_of_reading_keyed kind] at positional
      cases positional
  | _ => cases disguised

end Patch

/-- What a patch is printed as can be read. It is read as the same patch exactly when no patch in it
is disguised, and none is when each upsert directive of the tree has upserts. -/
theorem Patch.ofTree_printed_iff {t : Tree} (distinct : t.Distinct) {p : Patch}
    (done : ofTree t = .ok p) :
    ofTree p.toTree = .ok p.reread ∧
    (ofTree p.toTree = .ok p ↔ p.Everywhere fun q => q.isDisguised = false) ∧
    ((t.Everywhere fun node => node.upsertsNothing = false) → ofTree p.toTree = .ok p) := by
  have again := ofTree_toTree (everywhere_asRead distinct done)
  have same : ofTree p.toTree = .ok p ↔ p.Everywhere fun q => q.isDisguised = false := by
    rw [again, Except.ok.injEq]
    exact reread_eq_self_iff p
  refine ⟨again, same, fun filled => same.mpr ?_⟩
  have asked := (Tree.Everywhere.distinct distinct).and filled
  refine (readsEverywhere (fun t trail q asked done => ?_) asked).node .root p done
  refine Bool.eq_false_iff.mpr fun disguised => ?_
  have nothing := upsertsNothing_of_isDisguised asked.here.1 done disguised
  rw [asked.here.2] at nothing
  cases nothing

section Layered

/-- Calls, lists, slots, a script with a payload, groups and upserts within each other. -/
def layeredTree : Tree :=
  .mapping [("seed", .str "dy__eval( inc )"),
    ("model", .mapping [("layers", .list [.int 1, .mapping [("width", .str "dy__eval(double)")]]),
      ("sweep_group_b", .mapping [("depth", .int 2)]),
      ("sweep_group_a", .mapping [("rate", .mapping [(Keyword.eval,
        .mapping [("expression", .str "src"), ("function_of_interest", .str "f")])])])]),
    ("xs", .mapping [("__IDX__1", .int 5), ("__IDX__00", .mapping [("k", .null)])]),
    ("steps", .mapping [("width", .int 1),
      (Keyword.operations, .mapping [("__IDX__0", .mapping [(Keyword.insert,
        .mapping [("__IDX__0", .int 0), ("__IDX__1", .mapping [(Keyword.eval, .str "f")])])])]),
      ("last", .bool true)]),
    (Keyword.upsert, .mapping [("__IDX__1", .mapping [("z", .int 1)]),
      ("__IDX__0", .mapping [("late", .mapping [(Keyword.upsert, .list [.int 3])])])])]

def layeredPatch : Patch :=
  .keyed {
    entries := [("seed", .fromPrevious (.named "inc")),
      ("model", .keyed (ofParts [.plain "layers" (.list [.scalar (.int 1),
          .keyed { entries := [("width", .fromPrevious (.named "double"))] }]),
        .group "sweep_group_b" (.keyed { entries := [("depth", .scalar (.int 2))] }),
        .group "sweep_group_a" (.keyed { entries := [("rate", .fromRoot ⟨"src", some "f"⟩)] })])),
      ("xs", .sparse ⟨[(0, .keyed { entries := [("k", .scalar .null)] }), (1, .scalar (.int 5))]⟩),
      ("steps", .edits [.insert 0 (some (.computed (.named "f")))]
        { entries := [("width", .scalar (.int 1)), ("last", .scalar (.bool true))] })]
    upserts := orderUpserts [("__IDX__1", .keyed { entries := [("z", .scalar (.int 1))] }),
      ("__IDX__0", .keyed { entries := [("late", .keyed {
        upserts := [(none, .scalar (.int 3))] })] })] }

/-- A position with a directive without upserts. -/
def slotWithDirective : Tree :=
  .mapping [("__IDX__0", .int 1), (Keyword.upsert, .list [])]

theorem Patch.ofTree_printed_layered :
    (layeredTree.Distinct ∧ ofTree layeredTree = .ok layeredPatch ∧
      ofTree layeredPatch.toTree = .ok layeredPatch) ∧
    ∃ p, slotWithDirective.Distinct ∧ ofTree slotWithDirective = .ok p ∧ ofTree p.toTree ≠ .ok p := by
  have reads : ofTree layeredTree = .ok layeredPatch := by
    with_unfolding_all rfl
  have distinct : layeredTree.Distinct := by
    decide
  have slot : ofTree slotWithDirective
      = .ok (.keyed { entries := [("__IDX__0", .scalar (.int 1))] }) := by
    with_unfolding_all rfl
  have slotDistinct : slotWithDirective.Distinct := by
    decide
  refine ⟨⟨distinct, reads, ?_⟩, _, slotDistinct, slot, ?_⟩
  · exact (Patch.ofTree_printed_iff distinct reads).2.2 (by decide)
  · intro again
    obtain ⟨here, -⟩ := (Patch.ofTree_printed_iff slotDistinct slot).2.1.mp again
    exact absurd here (by decide)

/-- The directive is lost, and the keys stand for the positions of a list. -/
example : (Patch.keyed { entries := [("__IDX__0", .scalar (.int 1))] }).toTree
    = .mapping [("__IDX__0", .int 1)] := rfl

end Layered

end Printed

end ConfigSweep
