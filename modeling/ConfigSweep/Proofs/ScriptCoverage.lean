import ConfigSweep.Proofs.Coverage

/-!
# Scripts that are written as mappings

A mapping of instructions stands for the list that has them in the order of their positions. It is
accepted when the highest position is the last one for the number of its entries, which tells that
no position is left out as long as no two tokens stand for one position. When two do, the mapping may
be accepted with a gap between its positions, and an instruction is lost.
-/

namespace ConfigSweep

namespace Mapping

variable {α : Type} {m : Mapping α} {items : List α}

/-- The values at the positions below the number of entries, in turn; of several keys for one position
the last counts. -/
def inPositionOrder (m : Mapping α) : List α :=
  (List.range m.length).filterMap fun position => (lastAt? position m).map Prod.snd

theorem positions_writesOf : (SparseList.writesOf m).map Prod.fst = positions m := by
  simp [SparseList.writesOf, positions, List.map_filterMap, Function.comp_def]

theorem mem_positions_ofEntries {position : Nat} :
    position ∈ (SparseList.ofEntries m).slots.map Prod.fst ↔ position ∈ positions m := by
  rw [SparseList.ofEntries_eq, SparseList.mem_positions_ofWrites, positions_writesOf]

theorem highest?_ofEntries : (SparseList.ofEntries m).highest? = (positions m).max? := by
  rw [SparseList.ofEntries_eq, SparseList.highest?_ofWrites, positions_writesOf]

theorem values_ofEntries (within : ∀ position ∈ positions m, position < m.length) :
    (SparseList.ofEntries m).slots.map Prod.snd = inPositionOrder m := by
  have below : ∀ slot ∈ (SparseList.ofEntries m).slots, slot.1 < m.length := fun slot member =>
    within slot.1 (mem_positions_ofEntries.mp (List.mem_map_of_mem member))
  rw [SparseList.values_eq (SparseList.ascending_ofEntries m) below]
  exact List.filterMap_congr fun position _ => SparseList.at?_ofEntries m position

/-- There are as many slots as distinct positions. -/
theorem length_ofEntries : (SparseList.ofEntries m).slots.length = (positions m).dedup.length := by
  rw [SparseList.ofEntries_eq, ← positions_writesOf]
  exact SparseList.size_ofWrites _

theorem Lists.inPositionOrder_eq (lists : m.Lists items) : inPositionOrder m = items := by
  have within : ∀ position ∈ positions m, position < m.length := fun position member =>
    Nat.lt_of_lt_of_le (lists.mem_positions.mp member) lists.length_le
  rw [← values_ofEntries within]
  exact (SparseList.toList_eq_ok.mp (toList_ofEntries.mpr lists)).2

end Mapping

namespace Script

variable {entries : Mapping Tree}

/-- The highest position of those below a number. -/
theorem max?_of_perm {positions : List Nat} {count : Nat}
    (covered : positions.Perm (List.range count)) (last : Nat) :
    positions.max? = some last ↔ last + 1 = count := by
  rw [List.max?_eq_some_iff]
  simp only [covered.mem_iff, List.mem_range]
  constructor
  · rintro ⟨within, above⟩
    by_contra away
    have below := above (last + 1) (by omega)
    omega
  · rintro rfl
    exact ⟨Nat.lt_succ_self last, fun position within => Nat.le_of_lt_succ within⟩

/-- No position is above the highest one. -/
theorem lt_of_highest {positions : List Nat} {count : Nat}
    (highest : ∀ last, positions.max? = some last ↔ last + 1 = count) :
    ∀ position ∈ positions, position < count := by
  intro position member
  cases top : positions.max? with
  | none =>
    rw [List.max?_eq_none_iff.mp top] at member
    cases member
  | some last =>
    have above := (List.max?_eq_some_iff.mp top).2 position member
    have size := (highest last).mp top
    omega

/-- A mapping is accepted as a script when its keys are tokens and the highest position is the last
one for the number of its entries. -/
theorem ofTree_mapping_eq_ok (fits : entries.length + 1 < Word.bound) {script : Script} :
    ofTree (.mapping entries) = .ok script ↔ (∀ e ∈ entries, Position.isToken e.1 = true) ∧
      (∀ last, entries.positions.max? = some last ↔ last + 1 = entries.length) ∧
      ofTree (.list entries.inPositionOrder) = .ok script := by
  have values : (∀ last, entries.positions.max? = some last ↔ last + 1 = entries.length) →
      (SparseList.ofEntries entries).slots.map Prod.snd = entries.inPositionOrder :=
    fun highest => Mapping.values_ofEntries (lt_of_highest highest)
  unfold ofTree
  rw [bind_eq_ok]
  simp only [inOrder_eq_ok, SparseList.length_eq_iff fits, Mapping.highest?_ofEntries]
  constructor
  · rintro ⟨instructions, ⟨tokens, highest, rfl⟩, read⟩
    exact ⟨tokens, highest, values highest ▸ read⟩
  · rintro ⟨tokens, highest, read⟩
    exact ⟨_, ⟨tokens, highest, rfl⟩, (values highest).symm ▸ read⟩

/-- A mapping is accepted as a script if and only if its keys are tokens, the highest position is the
last one for the number of its entries, and its values in the order of the positions are a script; that
is its script. It has as many instructions as the mapping has entries if and only if no two keys stand
for one position. For such mappings, those are accepted that have a token for every position below the
number of their entries, and that are a script when they are written as the list of all entries. A
mapping in memory has fewer entries than there are positions, which are words. -/
theorem ofTree_mapping_complete (entries : Mapping Tree) (fits : entries.length + 1 < Word.bound) :
    (∀ script, ofTree (.mapping entries) = .ok script ↔
      (∀ e ∈ entries, Position.isToken e.1 = true) ∧
      (∀ last, entries.positions.max? = some last ↔ last + 1 = entries.length) ∧
      ofTree (.list entries.inPositionOrder) = .ok script) ∧
    (∀ script, ofTree (.mapping entries) = .ok script →
      (script.length = entries.length ↔ entries.positions.Nodup)) ∧
    (entries.positions.Nodup → ∀ script, ofTree (.mapping entries) = .ok script ↔
      (∀ e ∈ entries, Position.isToken e.1 = true) ∧
      entries.positions.Perm (List.range entries.length) ∧
      ∃ items, entries.ListsAll items ∧ ofTree (.list items) = .ok script) := by
  refine ⟨fun script => ofTree_mapping_eq_ok fits, fun script done => ?_, fun unique script => ?_⟩
  · obtain ⟨instructions, ordered, read⟩ := bind_eq_ok.mp done
    obtain ⟨tokens, -, rfl⟩ := inOrder_eq_ok.mp ordered
    have size := (mapM_eq_ok.mp read).length_eq
    rw [List.length_map, Mapping.length_ofEntries] at size
    rw [← size, ← Mapping.length_positions tokens]
    constructor
    · intro same
      exact List.dedup_eq_self.mp ((List.dedup_sublist _).eq_of_length same)
    · intro unique
      rw [List.dedup_eq_self.mpr unique]
  · rw [ofTree_mapping_eq_ok fits]
    constructor
    · rintro ⟨tokens, highest, read⟩
      have count := Mapping.length_positions tokens
      have covered : entries.positions.Perm (List.range entries.length) := by
        rw [← count]
        refine Mapping.perm_range_of_lt unique fun position member => ?_
        rw [count]
        exact lt_of_highest highest position member
      obtain ⟨items, lists⟩ := Mapping.lists_of_perm covered
      exact ⟨tokens, covered, items, lists.all unique tokens, lists.inPositionOrder_eq ▸ read⟩
    · rintro ⟨tokens, covered, items, all, read⟩
      refine ⟨tokens, max?_of_perm covered, ?_⟩
      rwa [(all.lists unique).inPositionOrder_eq]

section Payloads

def insertNine : Tree :=
  .mapping [(Keyword.insert, .list [.int 0, .int 9])]

def removeFirst : Tree :=
  .mapping [(Keyword.remove, .int 0)]

/-- Two tokens for one position, which is the last one for two entries. -/
def twinScript : Mapping Tree :=
  [("__IDX__1", removeFirst), ("__IDX__01", insertNine)]

def swappedScript : Mapping Tree :=
  [("__IDX__1", removeFirst), ("__IDX__0", insertNine)]

/-- A mapping with two tokens for one position is accepted and loses an instruction. -/
theorem ofTree_twinScript :
    (ofTree (.mapping twinScript) = .ok [.insert 0 (some (.literal (.int 9)))] ∧
      ¬ twinScript.positions.Nodup) ∧
    ofTree (.mapping swappedScript) = .ok [.insert 0 (some (.literal (.int 9))), .remove 0] := by
  obtain ⟨accepted, keepsAll, -⟩ := ofTree_mapping_complete twinScript (by decide)
  obtain ⟨-, -, complete⟩ := ofTree_mapping_complete swappedScript (by decide)
  constructor
  · have top : twinScript.positions.max? = some 1 := by decide
    have highest : ∀ last, twinScript.positions.max? = some last ↔ last + 1 = 2 := by
      intro last
      rw [top, Option.some.injEq]
      omega
    have done := (accepted [.insert 0 (some (.literal (.int 9)))]).mpr
      ⟨by decide, highest, by with_unfolding_all rfl⟩
    refine ⟨done, fun unique => ?_⟩
    have count := (keepsAll _ done).mpr unique
    cases count
  · refine (complete (by decide) _).mpr ⟨by decide, by decide, [insertNine, removeFirst], ⟨rfl, ?_⟩,
      by with_unfolding_all rfl⟩
    intro e member
    simp only [swappedScript, List.mem_cons, List.not_mem_nil, or_false] at member
    rcases member with rfl | rfl
    · exact ⟨1, by decide, rfl⟩
    · exact ⟨0, by decide, rfl⟩

end Payloads

end Script

end ConfigSweep
