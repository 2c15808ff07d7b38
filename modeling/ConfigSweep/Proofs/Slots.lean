import ConfigSweep.Proofs.IndexedScript

/-!
# Slots at words

A sparse list whose positions are words is read back from its mapping from position tokens. It is
filled by writes, at any positions and in any order, which tell what it holds: at each position the
value that was written there last. It has no gap when its positions are those below their number.
-/

namespace ConfigSweep

theorem Position.ofToken?_lt {key : String} {position : Nat} (token : ofToken? key = some position) :
    position < Word.bound := by
  obtain ⟨digits, -, value⟩ := Option.bind_eq_some_iff.mp token
  split at value
  · cases value
  · split at value
    · next fits => exact Option.some.inj value ▸ fits
    · cases value

namespace SparseList

variable {α : Type}

/-- The slots are in order, and their positions are words. -/
structure Listed (s : SparseList α) : Prop where
  filled : s.slots ≠ []
  ascending : s.Ascending
  fits : ∀ slot ∈ s.slots, slot.1 < Word.bound

namespace Listed

variable {β : Type} {s : SparseList α}

theorem mapValues (listed : s.Listed) (f : α → β) : (s.mapValues f).Listed where
  filled := List.map_eq_nil_iff.not.mpr listed.filled
  ascending := List.pairwise_map.mpr listed.ascending
  fits := List.forall_mem_map.mpr listed.fits

theorem isPositional_toMapping (listed : s.Listed) : Mapping.isPositional s.toMapping = true := by
  have filled : s.toMapping ≠ [] := List.map_eq_nil_iff.not.mpr listed.filled
  have tokens : ∀ e ∈ s.toMapping, Position.isToken e.1 = true := by
    refine List.forall_mem_map.mpr fun slot member => ?_
    rw [Position.isToken, Position.ofToken?_token (listed.fits slot member)]
    rfl
  rw [Mapping.isPositional, Bool.and_eq_true]
  exact ⟨by simpa using filled, List.all_eq_true.mpr tokens⟩

theorem ofEntries_toMapping (listed : s.Listed) : ofEntries s.toMapping = s :=
  SparseList.ofEntries_toMapping listed.ascending listed.fits

/-- A sparse list that is not empty is the one that its mapping stands for. -/
theorem ofMapping?_toMapping (listed : s.Listed) : ofMapping? s.toMapping = some s := by
  unfold ofMapping?
  rw [if_pos listed.isPositional_toMapping, listed.ofEntries_toMapping]

end Listed

theorem listed_ofWrites {writes : List (Nat × α)} (filled : writes ≠ [])
    (words : ∀ write ∈ writes, write.1 < Word.bound) : (ofWrites writes).Listed where
  filled := by
    intro none'
    obtain ⟨write, member⟩ := List.exists_mem_of_ne_nil writes filled
    have there := (mem_positions_ofWrites writes).mpr (List.mem_map_of_mem member)
    rw [none'] at there
    cases there
  ascending := ascending_ofWrites writes
  fits := fun slot member => words slot (mem_of_mem_ofWrites writes member)

theorem listed_ofEntries {m : Mapping α} (positional : Mapping.isPositional m = true) :
    (ofEntries m).Listed := by
  obtain ⟨filled, tokens⟩ := Bool.and_eq_true _ _ ▸ positional
  obtain ⟨e, rest, rfl⟩ := List.exists_cons_of_ne_nil (by simpa using filled)
  obtain ⟨position, token⟩ :=
    Option.isSome_iff_exists.mp (List.all_eq_true.mp tokens e List.mem_cons_self)
  have written : (position, e.2) ∈ writesOf (e :: rest) :=
    mem_writesOf.mpr ⟨e, List.mem_cons_self, token, rfl⟩
  rw [ofEntries_eq]
  refine listed_ofWrites (List.ne_nil_of_mem written) fun write member => ?_
  obtain ⟨d, -, token, -⟩ := mem_writesOf.mp member
  exact Position.ofToken?_lt token

/-- Writes at positions that are words, in any order, leave a sparse list with as many slots as
different positions were written. It is without gaps if and only if these positions are those below
their number, and is then listed as the values that were written last at each. Its length is one past
the highest position, at most the greatest word. If anything was written, its mapping from position
tokens has a key for each slot and is read back as the same sparse list: the token of every word is
read as that word. -/
theorem ofWrites_exact (writes : List (Nat × α)) (words : ∀ write ∈ writes, write.1 < Word.bound) :
    (ofWrites writes).size = (writes.map Prod.fst).dedup.length ∧
    ((ofWrites writes).checkGapless = .ok () ↔
      ∀ position, position ∈ writes.map Prod.fst ↔ position < (ofWrites writes).size) ∧
    ((ofWrites writes).checkGapless = .ok () → ∃ items, (ofWrites writes).toList = .ok items ∧
      ∀ position, items[position]? = lastWritten? position writes) ∧
    (ofWrites writes).length = ((writes.map Prod.fst).max?.map fun highest =>
      min (highest + 1) (Word.bound - 1)).getD 0 ∧
    (writes ≠ [] → (Mapping.keys (ofWrites writes).toMapping).Nodup ∧
      ofMapping? (ofWrites writes).toMapping = some (ofWrites writes)) ∧
    ∀ position < Word.bound, Position.ofToken? (Position.token position) = some position := by
  have ascending := ascending_ofWrites writes
  have written : ∀ position, position ∈ (ofWrites writes).slots.map Prod.fst ↔
      position ∈ writes.map Prod.fst := fun _ => mem_positions_ofWrites writes
  refine ⟨size_ofWrites writes, ?_, fun gapless => ?_, ?_, fun filled => ?_,
    fun position => Position.ofToken?_token⟩
  · simp only [checkGapless_eq_ok_iff ascending, written]
  · have lists := toList_eq_ok.mpr ⟨gapless, rfl⟩
    refine ⟨_, lists, fun position => ?_⟩
    rw [← at?_ofWrites]
    exact (toList_eq_ok_iff ascending).mp lists position
  · unfold length
    rw [highest?_ofWrites]
    cases (writes.map Prod.fst).max? <;> rfl
  · exact ⟨nodup_keys_toMapping ascending, (listed_ofWrites filled words).ofMapping?_toMapping⟩

section Layers

/-- The second layer is written twice. -/
def layerWrites : List (Nat × Tree) :=
  [(1, .int 4), (0, .int 8), (1, .int 2)]

/-- A hole that no list in memory could have. -/
def farWrites : List (Nat × Tree) :=
  [(0, .int 8), (Word.bound - 1, .int 2)]

theorem ofWrites_exact_layers :
    (∃ items, (ofWrites layerWrites).toList = .ok items ∧ items[1]? = some (.int 2)) ∧
    (ofWrites farWrites).checkGapless ≠ .ok () ∧ (ofWrites farWrites).length = Word.bound - 1 ∧
    ofMapping? (ofWrites farWrites).toMapping = some (ofWrites farWrites) := by
  obtain ⟨-, gapless, lists, -⟩ := ofWrites_exact layerWrites (by decide)
  obtain ⟨size, far, -, length, restored, -⟩ := ofWrites_exact farWrites (by decide)
  refine ⟨?_, fun covered => ?_, length, (restored nofun).2⟩
  · obtain ⟨items, listed, values⟩ := lists rfl
    exact ⟨items, listed, values 1⟩
  · have within := (far.mp covered (Word.bound - 1)).mp (by decide)
    rw [size] at within
    exact absurd within (by decide)

end Layers

end SparseList

end ConfigSweep
