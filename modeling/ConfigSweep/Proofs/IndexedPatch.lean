import ConfigSweep.Proofs.NodeReading

/-!
# Patches read from indexed trees

`Patch.indexed` is the patch that is read when the lists of a tree are mappings from position
tokens: patches for a list become patches at its positions, and upserts get the tokens of their
places as keys. All else stays, and in the same order.
-/

namespace ConfigSweep

namespace Patch

mutual

/-- The patch as it is read from the indexed tree. -/
def indexed : Patch → Patch
  | .scalar value => .scalar value
  | .fromPrevious call => .fromPrevious call
  | .fromRoot call => .fromRoot call
  | .list items => .sparse ⟨indexedItems items 0⟩
  | .sparse slots => .sparse (indexedSparse slots)
  | .edits script payload => .edits script (indexedKeyed payload)
  | .keyed patch => .keyed (indexedKeyed patch)

def indexedItems : List Patch → Nat → List (Nat × Patch)
  | [], _ => []
  | p :: ps, position => (position, indexed p) :: indexedItems ps (position + 1)

def indexedSparse : SparseList Patch → SparseList Patch
  | ⟨slots⟩ => ⟨indexedSlots slots⟩

def indexedSlots : List (Nat × Patch) → List (Nat × Patch)
  | [] => []
  | (position, p) :: rest => (position, indexed p) :: indexedSlots rest

def indexedKeyed : KeyedPatch Patch → KeyedPatch Patch
  | ⟨entries, groups, upserts⟩ =>
    ⟨indexedNamed entries, indexedNamed groups, indexedUpserts upserts 0⟩

def indexedNamed : List (String × Patch) → List (String × Patch)
  | [] => []
  | (key, p) :: rest => (key, indexed p) :: indexedNamed rest

def indexedUpserts : List (Option String × Patch) → Nat → List (Option String × Patch)
  | [], _ => []
  | (key, p) :: rest, place =>
    (some (key.getD (Position.token place)), indexed p) :: indexedUpserts rest (place + 1)

end

theorem indexedItems_eq (items : List Patch) (start : Nat) :
    indexedItems items start = SparseList.slotsOf (items.map indexed) start := by
  induction items generalizing start with
  | nil => rfl
  | cons p ps ih => rw [indexedItems, ih, List.map_cons, SparseList.slotsOf_cons]

theorem indexedSparse_eq (slots : SparseList Patch) :
    indexedSparse slots = slots.mapValues indexed := by
  obtain ⟨slots⟩ := slots
  rw [indexedSparse, SparseList.mapValues]
  refine congrArg SparseList.mk ?_
  induction slots with
  | nil => rfl
  | cons slot rest ih => rw [indexedSlots, ih, List.map_cons]

theorem indexedNamed_eq (named : List (String × Patch)) :
    indexedNamed named = named.map fun e => (e.1, e.2.indexed) := by
  induction named with
  | nil => rfl
  | cons e rest ih => rw [indexedNamed, ih, List.map_cons]

/-- Upserts without keys get the tokens of their places. -/
theorem indexedUpserts_items (items : List Patch) (start : Nat) :
    indexedUpserts (items.map fun p => (none, p)) start
      = (Mapping.ofItems (items.map indexed) start).map fun e => (some e.1, e.2) := by
  induction items generalizing start with
  | nil => rfl
  | cons p ps ih =>
    rw [List.map_cons, indexedUpserts, ih, List.map_cons, Mapping.ofItems_cons, List.map_cons]
    rfl

/-- Upserts with keys keep them. -/
theorem indexedUpserts_named (named : List (String × Patch)) (start : Nat) :
    indexedUpserts (named.map fun e => (some e.1, e.2)) start
      = (named.map fun e => (e.1, e.2.indexed)).map fun e => (some e.1, e.2) := by
  induction named generalizing start with
  | nil => rfl
  | cons e rest ih =>
    rw [List.map_cons, indexedUpserts, ih, List.map_cons, List.map_cons]
    rfl

namespace Part

def indexed : Part → Part
  | .plain key patch => .plain key patch.indexed
  | .group key patch => .group key patch.indexed
  | .upserts patches => .upserts (indexedUpserts patches 0)

end Part

theorem ofParts_indexed (parts : List Part) :
    ofParts (parts.map Part.indexed) = indexedKeyed (ofParts parts) := by
  have plain : (parts.map Part.indexed).filterMap Part.plain?
      = (parts.filterMap Part.plain?).map fun e => (e.1, e.2.indexed) := by
    rw [List.filterMap_map, List.map_filterMap]
    refine List.filterMap_congr fun part _ => ?_
    cases part <;> rfl
  have groups : (parts.map Part.indexed).filterMap Part.group?
      = (parts.filterMap Part.group?).map fun e => (e.1, e.2.indexed) := by
    rw [List.filterMap_map, List.map_filterMap]
    refine List.filterMap_congr fun part _ => ?_
    cases part <;> rfl
  have upserts : (parts.map Part.indexed).filterMap Part.upserts?
      = (parts.filterMap Part.upserts?).map fun patches => indexedUpserts patches 0 := by
    rw [List.filterMap_map, List.map_filterMap]
    refine List.filterMap_congr fun part _ => ?_
    cases part <;> rfl
  unfold ofParts
  rw [plain, groups, upserts, indexedKeyed, indexedNamed_eq, indexedNamed_eq, List.getLast?_map,
    List.map_mergeSort (s := fun a b => decide (a.1 ≤ b.1)) (by simp)]
  cases (parts.filterMap Part.upserts?).getLast? <;> rfl

/-- The indexed tree is read as the indexed patch. -/
def ReadAs (t : Tree) (p : Patch) : Prop :=
  ∀ trail, ofTreeAt t.indexed trail = .ok p.indexed

/-- What can be read of a tree can be read of the indexed tree, as a node and as upserts. -/
structure Reads (t : Tree) : Prop where
  node : ∀ trail p, ofTreeAt t trail = .ok p → ReadAs t p
  upserts : ∀ trail us, upsertsOf t trail = .ok us →
    ∀ other, upsertsOf t.indexed other = .ok (indexedUpserts us 0)

section Items

variable {items : List Tree} {ps : List Patch}

theorem ofItems_readAs (reads : ∀ t ∈ items, Reads t) {start : Nat} {trail : Trail}
    (done : ofItems items start trail = .ok ps) : List.Forall₂ ReadAs items ps := by
  refine ((List.forall₂_and_left items ps).mpr ⟨reads, ofItems_from done⟩).imp fun t p both => ?_
  obtain ⟨known, trail, read⟩ := both
  exact known.node trail p read

/-- The items are read under the tokens of their positions. -/
theorem namedFrom_indexedItems (read : List.Forall₂ ReadAs items ps) (start : Nat)
    (below : String → Trail) :
    NamedFrom below (Tree.indexedItems items start) (Mapping.ofItems (ps.map indexed) start) := by
  induction read generalizing start with
  | nil => exact .nil
  | cons first rest ih =>
    rw [Tree.indexedItems, List.map_cons, Mapping.ofItems_cons]
    exact .cons ⟨rfl, first _⟩ (ih (start + 1))

/-- Upserts at ascending positions are in order already. -/
theorem orderUpserts_ofItems {patches : List Patch} (fits : patches.length < Word.bound) :
    orderUpserts (Mapping.ofItems patches 0)
      = (Mapping.ofItems patches 0).map fun e => (some e.1, e.2) := by
  have position : ∀ e ∈ patches.zipIdx 0,
      (Position.ofToken? (Position.token e.2)).getD 0 = e.2 := by
    intro e member
    have small := (List.mem_zipIdx (show (e.1, e.2) ∈ patches.zipIdx 0 from member)).2.1
    rw [Position.ofToken?_token (by omega)]
    rfl
  have ascending : (patches.zipIdx 0).Pairwise fun a b => a.2 < b.2 := by
    have positions := List.pairwise_lt_range' (s := 0) (n := patches.length) 1
    rw [← List.zipIdx_map_snd, List.pairwise_map] at positions
    exact positions
  have sorted : (Mapping.ofItems patches 0).Pairwise fun a b =>
      decide ((Position.ofToken? a.1).getD 0 ≤ (Position.ofToken? b.1).getD 0) = true := by
    rw [Mapping.ofItems, List.pairwise_map]
    refine ascending.imp_of_mem fun {a b} first second less => ?_
    rw [position a first, position b second, decide_eq_true_eq]
    omega
  unfold orderUpserts
  dsimp only
  split
  · rw [List.mergeSort_of_pairwise sorted]
  · rfl

end Items

section Entries

variable {entries : List (String × Tree)}

theorem NamedFrom.indexed (reads : ∀ e ∈ entries, Reads e.2) {below : String → Trail}
    {named : List (String × Patch)} (read : NamedFrom below entries named) (below' : String → Trail) :
    NamedFrom below' (Tree.indexedEntries entries) (named.map fun n => (n.1, n.2.indexed)) := by
  rw [Tree.indexedEntries_eq, NamedFrom, List.forall₂_map_left_iff, List.forall₂_map_right_iff]
  refine ((List.forall₂_and_left entries named).mpr ⟨reads, read⟩).imp fun e n both => ?_
  exact ⟨both.2.1, both.1.node _ _ both.2.2 _⟩

theorem PartsFrom.indexed (reads : ∀ e ∈ entries, Reads e.2) {trail : Trail} {parts : List Part}
    (read : PartsFrom trail entries parts) (other : Trail) :
    PartsFrom other (Tree.indexedEntries entries) (parts.map Part.indexed) := by
  rw [Tree.indexedEntries_eq, PartsFrom, List.forall₂_map_left_iff, List.forall₂_map_right_iff]
  refine ((List.forall₂_and_left entries parts).mpr ⟨reads, read⟩).imp fun e part both => ?_
  obtain ⟨reads, from'⟩ := both
  cases from' with
  | group p named read => exact .group p.indexed named (reads.node _ p read _)
  | upserts us named read => exact .upserts _ named (reads.upserts _ us read _)
  | plain p single named read => exact .plain p.indexed single named (reads.node _ p read _)

/-- How a mapping is read does not depend on the order in which its lists are written. -/
theorem reading_entries (entries : List (String × Tree)) :
    reading (Tree.indexedEntries entries)
      = match reading entries with
        | .call payload => .call payload.indexed
        | .script operations => .script operations.indexed
        | other => other := by
  have positional : Mapping.isPositional (Tree.indexedEntries entries)
      = Mapping.isPositional entries := by
    rw [Tree.indexedEntries_eq]
    simp [Mapping.isPositional, Function.comp_def]
  have marked : Mapping.has Keyword.sweep (Tree.indexedEntries entries)
      = Mapping.has Keyword.sweep entries := by
    unfold Mapping.has
    rw [Tree.get?_indexedEntries, Option.isSome_map]
  unfold reading
  rw [Tree.get?_indexedEntries, Tree.get?_indexedEntries, Tree.length_indexedEntries, positional,
    marked]
  cases Mapping.get? Keyword.eval entries with
  | some payload =>
    dsimp only [Option.map_some]
    split <;> rfl
  | none =>
    dsimp only [Option.map_none]
    split
    · rfl
    · cases Mapping.get? Keyword.operations entries with
      | some operations => rfl
      | none =>
        dsimp only [Option.map_none]
        split <;> rfl

/-- How a mapping is read can be told from the indexed mapping. -/
theorem reading_of_indexed {entries : List (String × Tree)} :
    ∀ {how : Reading}, reading (Tree.indexedEntries entries) = how → match how with
      | .call payload => ∃ given, reading entries = .call given ∧ given.indexed = payload
      | .script operations => ∃ given, reading entries = .script given ∧ given.indexed = operations
      | other => reading entries = other := by
  rintro how rfl
  rw [reading_entries]
  cases reading entries with
  | call given => exact ⟨given, rfl, rfl⟩
  | script given => exact ⟨given, rfl, rfl⟩
  | _ => rfl

/-- Items under position tokens are read as patches at positions. -/
theorem reading_items {items : List Tree} (filled : items ≠ []) (fits : items.length < Word.bound) :
    reading (Tree.indexedItems items 0) = .sparse := by
  have short : 0 + (items.map Tree.indexed).length ≤ Word.bound := by
    rw [List.length_map]
    omega
  refine reading_of_positional ?_
  rw [Tree.indexedItems_eq]
  exact Mapping.isPositional_ofItems (by simpa using filled) short

theorem orderUpserts_map (named : Mapping Patch) :
    orderUpserts (named.map fun e => (e.1, e.2.indexed)) = indexedUpserts (orderUpserts named) 0 := by
  have positional : Mapping.isPositional (named.map fun e => (e.1, e.2.indexed))
      = Mapping.isPositional named := by
    simp [Mapping.isPositional, Function.comp_def]
  let inOrder := fun a b : String × Patch =>
    decide ((Position.ofToken? a.1).getD 0 ≤ (Position.ofToken? b.1).getD 0)
  have sorted : (named.mergeSort inOrder).map (fun e => (e.1, e.2.indexed))
      = (named.map fun e => (e.1, e.2.indexed)).mergeSort inOrder :=
    List.map_mergeSort fun a _ b _ => rfl
  unfold orderUpserts
  rw [indexedUpserts_named, positional]
  dsimp only
  split
  · rw [← sorted]
  · rfl

end Entries

/-- What can be read of a tree is read alike of the indexed tree. -/
theorem reads (t : Tree) (filled : t.ListsFilled) (fit : t.ListsFit) : Reads t := by
  induction t using Tree.children_induction with
  | node t ih =>
    have below : t.AllChildren Reads := fun c child =>
      ih c child (filled.child c child) (fit.child c child)
    constructor
    · intro trail p done other
      rw [ofTreeAt_iff] at done ⊢
      cases done with
      | scalar leaf plain =>
        rw [indexed_leaf leaf]
        exact .scalar leaf plain
      | fromPrevious embedded => exact .fromPrevious embedded
      | fromRoot kind read =>
        refine .fromRoot (by rw [reading_entries, kind]) ?_
        rw [Call.indexed_of_ofTree read]
        exact read
      | @list items ps read =>
        have readAs := ofItems_readAs (Tree.allChildren_list.mp below) read
        have short : items.length < Word.bound := fit.1
        have slots : SparseList.ofEntries (Mapping.ofItems (ps.map indexed) 0)
            = ⟨SparseList.slotsOf (ps.map indexed) 0⟩ :=
          SparseList.ofEntries_ofItems (by rwa [List.length_map, ← readAs.length_eq])
        rw [Tree.indexed, indexed, indexedItems_eq, ← slots]
        exact .sparse (reading_items (fun empty => filled.1 (empty ▸ rfl)) short)
          (namedFrom_indexedItems readAs 0 _)
      | sparse kind read =>
        rw [indexed, indexedSparse_eq, ← SparseList.ofEntries_map]
        exact .sparse (by rw [reading_entries, kind]) (read.indexed (Tree.allChildren_mapping.mp below) _)
      | @edits entries operations script parts kind scripted read =>
        have member := mem_of_reading_script kind
        have scripted' := Script.ofTree_indexed
          (Tree.everywhereEntries_iff.mp filled.2 _ member)
          (Tree.everywhereEntries_iff.mp fit.2 _ member) scripted
        have kept := read.indexed
          (fun e member => Tree.allChildren_mapping.mp below e (Mapping.mem_of_mem_remove member)) other
        rw [Tree.indexedEntries_eq, ← Mapping.remove_map, ← Tree.indexedEntries_eq] at kept
        rw [indexed, ← ofParts_indexed]
        exact .edits (by rw [reading_entries, kind]) scripted' kept
      | keyed kind read =>
        rw [indexed, ← ofParts_indexed]
        exact .keyed (by rw [reading_entries, kind]) (read.indexed (Tree.allChildren_mapping.mp below) other)
    · intro trail us done other
      rw [upsertsOf_iff] at done ⊢
      cases done with
      | @items items ps read =>
        have readAs := ofItems_readAs (Tree.allChildren_list.mp below) read
        have short : items.length < Word.bound := fit.1
        rw [indexedUpserts_items, ← orderUpserts_ofItems (by rwa [List.length_map, ← readAs.length_eq])]
        exact .named (namedFrom_indexedItems readAs 0 _)
      | named read =>
        rw [← orderUpserts_map]
        exact .named (read.indexed (Tree.allChildren_mapping.mp below) _)

end Patch

end ConfigSweep
