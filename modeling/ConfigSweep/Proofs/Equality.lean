import ConfigSweep.Tree.Equality
import ConfigSweep.Proofs.Mapping
import Mathlib.Data.List.Perm.Subperm

/-!
# Laws of equality of values

Trees without repeated keys hold their own value. Mappings hold the same value when they are of one
length and every entry of the one finds its partner in the other.
-/

namespace ConfigSweep.Tree

theorem entriesWithin_iff {entries : List (String × Tree)} {other : Mapping Tree} :
    entriesWithin entries other = true ↔
      ∀ e ∈ entries, ∃ y, Mapping.get? e.1 other = some y ∧ sameValue e.2 y = true := by
  induction entries with
  | nil => simp [entriesWithin]
  | cons e rest ih =>
    rw [entriesWithin, Bool.and_eq_true, ih, List.forall_mem_cons]
    refine and_congr_left fun _ => ?_
    cases Mapping.get? e.1 other with
    | none => simp
    | some y => simp

theorem sameValue_mapping_iff {a b : Mapping Tree} :
    sameValue (.mapping a) (.mapping b) = true ↔ a.length = b.length ∧
      ∀ e ∈ a, ∃ y, Mapping.get? e.1 b = some y ∧ sameValue e.2 y = true := by
  rw [sameValue, Bool.and_eq_true, beq_iff_eq, entriesWithin_iff]

/-- Values that are both absent or both there and the same. -/
abbrev SameValue? (a b : Option Tree) : Prop :=
  Option.Rel (fun x y => sameValue x y = true) a b

/-- Mappings hold the same value when they do under every key. -/
theorem sameValue_of_get? {a b : Mapping Tree} (uniqueA : (Mapping.keys a).Nodup)
    (uniqueB : (Mapping.keys b).Nodup)
    (agree : ∀ key, SameValue? (Mapping.get? key a) (Mapping.get? key b)) :
    sameValue (.mapping a) (.mapping b) = true := by
  have keys : ∀ key, key ∈ Mapping.keys a ↔ key ∈ Mapping.keys b := by
    intro key
    have here := agree key
    rw [← not_iff_not, ← Mapping.get?_eq_none_iff, ← Mapping.get?_eq_none_iff]
    cases found : Mapping.get? key a with
    | none =>
      rw [found] at here
      cases other : Mapping.get? key b with
      | none => simp
      | some y => rw [other] at here; cases here
    | some x =>
      rw [found] at here
      cases other : Mapping.get? key b with
      | none => rw [other] at here; cases here
      | some y => simp
  rw [sameValue_mapping_iff]
  constructor
  · have same := ((List.perm_ext_iff_of_nodup uniqueA uniqueB).mpr keys).length_eq
    simpa [Mapping.keys] using same
  · intro e member
    have here := agree e.1
    rw [Mapping.get?_of_mem uniqueA member] at here
    cases found : Mapping.get? e.1 b with
    | none => rw [found] at here; cases here
    | some y =>
      rw [found] at here
      cases here with
      | some same => exact ⟨y, rfl, same⟩

/-- Mappings that hold the same value have the same keys. -/
theorem keys_of_sameValue {a b : Mapping Tree} (unique : (Mapping.keys a).Nodup)
    (same : sameValue (.mapping a) (.mapping b) = true) :
    (Mapping.keys a).Perm (Mapping.keys b) := by
  obtain ⟨length, each⟩ := sameValue_mapping_iff.mp same
  have among : Mapping.keys a ⊆ Mapping.keys b := by
    intro key member
    obtain ⟨x, found⟩ := Mapping.exists_get?_of_mem_keys member
    obtain ⟨y, partner, -⟩ := each _ (Mapping.mem_of_get? found)
    exact Mapping.mem_keys_of_get? partner
  exact (List.subperm_of_subset unique among).perm_of_length_le
    (by simpa [Mapping.keys] using Nat.le_of_eq length.symm)

/-- Mappings hold the same value exactly when they do under every key. -/
theorem sameValue_iff_get? {a b : Mapping Tree} (uniqueA : (Mapping.keys a).Nodup)
    (uniqueB : (Mapping.keys b).Nodup) :
    sameValue (.mapping a) (.mapping b) = true ↔
      ∀ key, SameValue? (Mapping.get? key a) (Mapping.get? key b) := by
  refine ⟨fun same key => ?_, sameValue_of_get? uniqueA uniqueB⟩
  cases found : Mapping.get? key a with
  | none =>
    have absent := Mapping.get?_eq_none_iff.mp found
    rw [(keys_of_sameValue uniqueA same).mem_iff, ← Mapping.get?_eq_none_iff] at absent
    rw [absent]
    exact .none
  | some x =>
    obtain ⟨y, partner, alike⟩ := (sameValue_mapping_iff.mp same).2 _ (Mapping.mem_of_get? found)
    rw [partner]
    exact .some alike

theorem float_sameValue_refl (x : Binary64) : x.sameValue x = true := by
  simp [Binary64.sameValue]

mutual

theorem sameValue_refl : ∀ t : Tree, t.Distinct → sameValue t t = true
  | .null, _ => rfl
  | .bool b, _ => by simp [sameValue]
  | .int n, _ => by simp [sameValue]
  | .float x, _ => by simp [sameValue, float_sameValue_refl]
  | .str s, _ => by simp [sameValue]
  | .list items, distinct => by
    rw [sameValue]
    exact sameItems_refl items distinct
  | .mapping entries, distinct => by
    rw [sameValue_mapping_iff]
    refine ⟨rfl, fun e member => ⟨e.2, Mapping.get?_of_mem distinct.1 member, ?_⟩⟩
    exact sameEntries_refl entries distinct.2 e member

theorem sameItems_refl : ∀ items : List Tree, DistinctItems items → sameItems items items = true
  | [], _ => rfl
  | t :: ts, distinct => by
    rw [sameItems, Bool.and_eq_true]
    exact ⟨sameValue_refl t distinct.1, sameItems_refl ts distinct.2⟩

theorem sameEntries_refl : ∀ entries : List (String × Tree), DistinctEntries entries →
    ∀ e ∈ entries, sameValue e.2 e.2 = true
  | [], _ => by simp
  | (key, t) :: rest, distinct => by
    intro e member
    rcases List.mem_cons.mp member with rfl | later
    · exact sameValue_refl t distinct.1
    · exact sameEntries_refl rest distinct.2 e later

end

end ConfigSweep.Tree
