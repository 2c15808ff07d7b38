import ConfigSweep.Proofs.BareFailures
import ConfigSweep.Proofs.UpsertOrder
import ConfigSweep.Proofs.Walk

/-!
# The visits of a reading

Reading a tree as a patch visits its nodes. Upserts are visited without a visit to the directive
that holds them, and a script is read without a visit of its own.
-/

namespace ConfigSweep.Patch

/-- A call of `ofTreeAt`: a tree that is read as the node that a trail leads to. -/
structure NodeRead where
  tree : Tree
  trail : Trail

section Runs

variable {trail : Trail} {entries : List (String × Tree)} {f : Failure}

theorem ofItems_eq_mapM (items : List Tree) (position : Nat) (trail : Trail) :
    ofItems items position trail = (items.zipIdx position).mapM
      fun e => ofTreeAt e.1 (trail.child (toString e.2)) := by
  induction items generalizing position with
  | nil => rfl
  | cons t rest ih => rw [ofItems, List.zipIdx_cons, List.mapM_cons, ih]

theorem ofNamed_eq_mapM (entries : List (String × Tree)) (trail : Trail) :
    ofNamed entries trail
      = entries.mapM fun e => Prod.mk e.1 <$> ofTreeAt e.2 (trail.child e.1) := by
  induction entries with
  | nil => rfl
  | cons e rest ih =>
    rw [ofNamed, List.mapM_cons, ih]
    simp only [map_eq_pure_bind, bind_assoc, pure_bind]

theorem ofSlots_eq_foldlM (entries : List (String × Tree)) (trail : Trail)
    (slots : SparseList Patch) :
    ofSlots entries trail slots = entries.foldlM (fun slots e =>
      (slots.set (Position.rank e.1) ·) <$>
        ofTreeAt e.2 (trail.child (toString (Position.rank e.1)))) slots := by
  induction entries generalizing slots with
  | nil => rfl
  | cons e rest ih =>
    rw [ofSlots, List.foldlM_cons, map_eq_pure_bind, bind_assoc]
    simp only [pure_bind]
    exact bind_congr fun p => ih _

theorem sequenceParts_eq_mapM (entries : List (String × Tree)) (trail : Trail) :
    sequenceParts (partsOf entries trail) = entries.mapM (partOf trail) := by
  rw [partsOf_eq]
  induction entries with
  | nil => rfl
  | cons e rest ih => rw [List.map_cons, sequenceParts, List.mapM_cons, ih]

theorem ofItems_eq_error_iff {items : List Tree} :
    ofItems items 0 trail = .error f ↔ ∃ before t after patches, items = before ++ t :: after ∧
      ofItems before 0 trail = .ok patches ∧
        ofTreeAt t (trail.child (toString before.length)) = .error f := by
  simp only [ofItems_eq_mapM, mapM_zipIdx_eq_error, Nat.zero_add]

theorem ofNamed_eq_error_iff :
    ofNamed entries trail = .error f ↔ ∃ before e after named, entries = before ++ e :: after ∧
      ofNamed before trail = .ok named ∧ ofTreeAt e.2 (trail.child e.1) = .error f := by
  simp only [ofNamed_eq_mapM, mapM_eq_error_iff, map_eq_error]

theorem ofSlots_eq_error_iff :
    ofSlots entries trail .empty = .error f ↔ ∃ before e after slots,
      entries = before ++ e :: after ∧ ofSlots before trail .empty = .ok slots ∧
        ofTreeAt e.2 (trail.child (toString (Position.rank e.1))) = .error f := by
  simp only [ofSlots_eq_foldlM, foldlM_eq_error, map_eq_error]

theorem sequenceParts_eq_error_iff :
    sequenceParts (partsOf entries trail) = .error f ↔ ∃ before e after parts,
      entries = before ++ e :: after ∧ sequenceParts (partsOf before trail) = .ok parts ∧
        partOf trail e = .error f := by
  simp only [sequenceParts_eq_mapM, mapM_eq_error_iff]

end Runs

section Visits

/-- The visits that reading the entries of a mapping enters: to the value under a key, or to one of
the patches of an upsert directive. -/
inductive EntriesEnter : List (String × Tree) → Trail → NodeRead → Prop where
  | value {before after : List (String × Tree)} {key : String} {t : Tree} {trail : Trail}
      {parts : List Part} (done : sequenceParts (partsOf before trail) = .ok parts)
      (named : key ≠ Keyword.upsert) :
      EntriesEnter (before ++ (key, t) :: after) trail ⟨t, trail.child key⟩
  | upsertItem {before after : List (String × Tree)} {first rest : List Tree} {t : Tree}
      {trail : Trail} {parts : List Part} {patches : List Patch}
      (done : sequenceParts (partsOf before trail) = .ok parts)
      (read : ofItems first 0 (trail.child Keyword.upsert) = .ok patches) :
      EntriesEnter (before ++ (Keyword.upsert, .list (first ++ t :: rest)) :: after) trail
        ⟨t, (trail.child Keyword.upsert).child (toString first.length)⟩
  | upsertEntry {before after first rest : List (String × Tree)} {key : String} {t : Tree}
      {trail : Trail} {parts : List Part} {named : List (String × Patch)}
      (done : sequenceParts (partsOf before trail) = .ok parts)
      (read : ofNamed first (trail.child Keyword.upsert) = .ok named) :
      EntriesEnter (before ++ (Keyword.upsert, .mapping (first ++ (key, t) :: rest)) :: after) trail
        ⟨t, (trail.child Keyword.upsert).child key⟩

/-- A visit enters another: everything that it reads before has been read. -/
inductive Enters : NodeRead → NodeRead → Prop where
  | item {before after : List Tree} {t : Tree} {trail : Trail} {patches : List Patch}
      (done : ofItems before 0 trail = .ok patches) :
      Enters ⟨.list (before ++ t :: after), trail⟩ ⟨t, trail.child (toString before.length)⟩
  | slot {before after : List (String × Tree)} {key : String} {t : Tree} {trail : Trail}
      {slots : SparseList Patch} (kind : reading (before ++ (key, t) :: after) = .sparse)
      (done : ofSlots before trail .empty = .ok slots) :
      Enters ⟨.mapping (before ++ (key, t) :: after), trail⟩
        ⟨t, trail.child (toString (Position.rank key))⟩
  | payload {entries : List (String × Tree)} {operations : Tree} {script : Script} {trail : Trail}
      {inner : NodeRead} (kind : reading entries = .script operations)
      (scripted : Script.ofTree operations = .ok script)
      (enters : EntriesEnter (Mapping.remove Keyword.operations entries) trail inner) :
      Enters ⟨.mapping entries, trail⟩ inner
  | keyed {entries : List (String × Tree)} {trail : Trail} {inner : NodeRead}
      (kind : reading entries = .keyed) (enters : EntriesEnter entries trail inner) :
      Enters ⟨.mapping entries, trail⟩ inner

/-- What a visit reads before its failure is located. -/
def readNode (trail : Trail) : Tree → Outcome Patch
  | .str text => .ok (ofText text)
  | .list items => Patch.list <$> ofItems items 0 trail
  | .mapping entries =>
    match reading entries with
    | .crowdedCall => fail (.malformedDirective Keyword.eval "must be the only key in its mapping")
    | .call payload => Patch.fromRoot <$> Call.ofTree payload
    | .axis => fail (.malformedAxis trail.dotted
        "sweep axes must be resolved to a value before they are merged")
    | .script operations => do
      let script ← Script.ofTree operations
      let parts ← sequenceParts (partsOf (Mapping.remove Keyword.operations entries) trail)
      return .edits script (ofParts parts)
    | .sparse => Patch.sparse <$> ofSlots entries trail .empty
    | .keyed => do
      let parts ← sequenceParts (partsOf entries trail)
      return .keyed (ofParts parts)
  | leaf => .ok (.scalar leaf)

theorem remove_partsOf (key : String) (entries : List (String × Tree)) (trail : Trail) :
    Mapping.remove key (partsOf entries trail) = partsOf (Mapping.remove key entries) trail := by
  rw [partsOf_eq, partsOf_eq, Mapping.remove_map]

theorem ofTreeAt_eq_located (t : Tree) (trail : Trail) :
    ofTreeAt t trail = Outcome.located trail t (readNode trail t) := by
  cases t with
  | mapping entries =>
    rw [ofTreeAt, readNode]
    cases reading entries with
    | script operations =>
      dsimp only
      rw [remove_partsOf]
    | _ => rfl
  | _ => rfl

/-- The visits of a reading. -/
def walk : Walk NodeRead Patch where
  Enters := Enters
  trail visit := visit.trail
  patch visit := visit.tree
  work visit := readNode visit.trail visit.tree

theorem run_walk (visit : NodeRead) : walk.run visit = ofTreeAt visit.tree visit.trail :=
  (ofTreeAt_eq_located _ _).symm

end Visits

section Laws

variable {trail : Trail} {entries : List (String × Tree)} {f : Failure}

theorem partOf_value_eq_error {key : String} {t : Tree} (named : key ≠ Keyword.upsert) :
    partOf trail (key, t) = .error f ↔ ofTreeAt t (trail.child key) = .error f := by
  unfold partOf
  dsimp only
  rw [if_neg named]
  split
  · exact map_eq_error
  · exact map_eq_error

theorem partOf_upsert (t : Tree) (trail : Trail) :
    partOf trail (Keyword.upsert, t)
      = Part.upserts <$> upsertsOf t (trail.child Keyword.upsert) := by
  have single : Keyword.isGroup Keyword.upsert = false := by decide
  unfold partOf
  rw [if_neg (by simp [single]), if_pos rfl]

theorem parts_of_enters {inner : NodeRead} (enters : EntriesEnter entries trail inner)
    (failed : walk.run inner = .error f) : sequenceParts (partsOf entries trail) = .error f := by
  rw [run_walk] at failed
  rw [sequenceParts_eq_error_iff]
  cases enters with
  | value done named => exact ⟨_, _, _, _, rfl, done, (partOf_value_eq_error named).mpr failed⟩
  | upsertItem done read =>
    refine ⟨_, _, _, _, rfl, done, ?_⟩
    rw [partOf_upsert, map_eq_error]
    exact bind_pure_eq_error.mpr (ofItems_eq_error_iff.mpr ⟨_, _, _, _, rfl, read, failed⟩)
  | upsertEntry done read =>
    refine ⟨_, _, _, _, rfl, done, ?_⟩
    rw [partOf_upsert, map_eq_error]
    exact bind_pure_eq_error.mpr (ofNamed_eq_error_iff.mpr ⟨_, _, _, _, rfl, read, failed⟩)

theorem parts_eq_error (failed : sequenceParts (partsOf entries trail) = .error f) :
    f.place = none ∨ ∃ inner, EntriesEnter entries trail inner ∧ walk.run inner = .error f := by
  simp only [run_walk]
  obtain ⟨before, ⟨key, t⟩, after, parts, rfl, done, failed⟩ := sequenceParts_eq_error_iff.mp failed
  by_cases named : key = Keyword.upsert
  · subst named
    rw [partOf_upsert, map_eq_error] at failed
    cases t with
    | list items =>
      obtain ⟨first, t, rest, patches, rfl, read, failed⟩ :=
        ofItems_eq_error_iff.mp (bind_pure_eq_error.mp failed)
      exact .inr ⟨_, .upsertItem done read, failed⟩
    | mapping directive =>
      obtain ⟨first, ⟨key, t⟩, rest, named, rfl, read, failed⟩ :=
        ofNamed_eq_error_iff.mp (bind_pure_eq_error.mp failed)
      exact .inr ⟨_, .upsertEntry done read, failed⟩
    | _ => exact .inl (Outcome.Bare.fail _ f failed)
  · exact .inr ⟨_, .value done named, (partOf_value_eq_error named).mp failed⟩

theorem readNode_of_enters {outer inner : NodeRead} (enters : Enters outer inner)
    (failed : walk.run inner = .error f) : readNode outer.trail outer.tree = .error f := by
  cases enters with
  | item done =>
    rw [run_walk] at failed
    exact map_eq_error.mpr (ofItems_eq_error_iff.mpr ⟨_, _, _, _, rfl, done, failed⟩)
  | slot kind done =>
    rw [run_walk] at failed
    rw [readNode, kind]
    exact map_eq_error.mpr (ofSlots_eq_error_iff.mpr ⟨_, _, _, _, rfl, done, failed⟩)
  | payload kind scripted enters =>
    rw [readNode, kind]
    exact bind_eq_error.mpr (.inr ⟨_, scripted,
      bind_pure_eq_error.mpr (parts_of_enters enters failed)⟩)
  | keyed kind enters =>
    rw [readNode, kind]
    exact bind_pure_eq_error.mpr (parts_of_enters enters failed)

theorem readNode_eq_error {visit : NodeRead} (failed : readNode visit.trail visit.tree = .error f) :
    f.place = none ∨ ∃ inner, Enters visit inner ∧ walk.run inner = .error f := by
  obtain ⟨t, trail⟩ := visit
  cases t with
  | list items =>
    obtain ⟨before, t, after, patches, rfl, done, failed⟩ :=
      ofItems_eq_error_iff.mp (map_eq_error.mp failed)
    exact .inr ⟨_, .item done, (run_walk _).trans failed⟩
  | mapping entries =>
    rw [readNode] at failed
    cases kind : reading entries with
    | crowdedCall =>
      rw [kind] at failed
      exact .inl (Outcome.Bare.fail _ f failed)
    | call payload =>
      rw [kind] at failed
      exact .inl ((Call.ofTree_bare payload).map _ f failed)
    | axis =>
      rw [kind] at failed
      exact .inl (Outcome.Bare.fail _ f failed)
    | script operations =>
      rw [kind] at failed
      rcases bind_eq_error.mp failed with early | ⟨script, scripted, failed⟩
      · exact .inl (Script.ofTree_bare operations f early)
      rcases parts_eq_error (bind_pure_eq_error.mp failed) with own | ⟨inner, enters, failed⟩
      · exact .inl own
      · exact .inr ⟨inner, .payload kind scripted enters, failed⟩
    | sparse =>
      rw [kind] at failed
      obtain ⟨before, ⟨key, t⟩, after, slots, rfl, done, failed⟩ :=
        ofSlots_eq_error_iff.mp (map_eq_error.mp failed)
      exact .inr ⟨_, .slot kind done, (run_walk _).trans failed⟩
    | keyed =>
      rw [kind] at failed
      rcases parts_eq_error (bind_pure_eq_error.mp failed) with own | ⟨inner, enters, failed⟩
      · exact .inl own
      · exact .inr ⟨inner, .keyed kind enters, failed⟩
  | _ => cases failed

theorem sizeOf_lt_mapping {key : String} {t : Tree} (member : (key, t) ∈ entries) :
    sizeOf t < sizeOf (Tree.mapping entries) := by
  have within := List.sizeOf_lt_of_mem member
  rw [Prod.mk.sizeOf_spec] at within
  rw [Tree.mapping.sizeOf_spec]
  omega

theorem sizeOf_lt_list {items : List Tree} {t : Tree} (member : t ∈ items) :
    sizeOf t < sizeOf (Tree.list items) := by
  have within := List.sizeOf_lt_of_mem member
  rw [Tree.list.sizeOf_spec]
  omega

/-- What is visited below an entry is smaller than every mapping that has the entry. -/
theorem sizeOf_of_entriesEnter {inner : NodeRead} (enters : EntriesEnter entries trail inner)
    {whole : Mapping Tree} (within : ∀ e ∈ entries, e ∈ whole) :
    sizeOf inner.tree < sizeOf (Tree.mapping whole) := by
  cases enters with
  | value => exact sizeOf_lt_mapping (within _ List.mem_append_cons_self)
  | @upsertItem before after first rest t =>
    have item : sizeOf t < sizeOf (Tree.list (first ++ t :: rest)) :=
      sizeOf_lt_list List.mem_append_cons_self
    exact item.trans (sizeOf_lt_mapping (within _ List.mem_append_cons_self))
  | @upsertEntry before after first rest key t =>
    have entry : sizeOf t < sizeOf (Tree.mapping (first ++ (key, t) :: rest)) :=
      sizeOf_lt_mapping List.mem_append_cons_self
    exact entry.trans (sizeOf_lt_mapping (within _ List.mem_append_cons_self))

theorem sizeOf_of_enters {outer inner : NodeRead} (enters : Enters outer inner) :
    sizeOf inner.tree < sizeOf outer.tree := by
  cases enters with
  | item => exact sizeOf_lt_list List.mem_append_cons_self
  | slot => exact sizeOf_lt_mapping List.mem_append_cons_self
  | payload kind scripted enters =>
    exact sizeOf_of_entriesEnter enters fun _ => Mapping.mem_of_mem_remove
  | keyed kind enters => exact sizeOf_of_entriesEnter enters fun _ member => member

/-- The failures of a reading get their places from its visits. -/
theorem lawful_walk : walk.Lawful where
  ends := by
    have smaller : WellFounded fun inner outer : NodeRead =>
        sizeOf inner.tree < sizeOf outer.tree :=
      (measure fun visit : NodeRead => sizeOf visit.tree).wf
    exact Subrelation.wf sizeOf_of_enters smaller
  passes := readNode_of_enters
  arises := readNode_eq_error

end Laws

end ConfigSweep.Patch
