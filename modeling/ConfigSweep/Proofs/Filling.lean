import ConfigSweep.Defaults
import ConfigSweep.Proofs.Mapping

/-!
# What filling up a mapping adds

The keys of the base keep their places, absent keys follow in the order of what is added, and what
both sides have is filled up in turn.
-/

namespace ConfigSweep.Tree

/-- The value under a key that is filled up, when `merged` gives the fillings of shared keys. -/
def filledUnder (merged : String → Tree) (base added : Option Tree) (key : String) : Option Tree :=
  match base, added with
  | none, added => added
  | some b, none => some b
  | some _, some _ => some (merged key)

theorem addEntries_spec {added base : Mapping Tree} (merged : String → Tree) (trail : Trail)
    (unique : (Mapping.keys added).Nodup)
    (fits : ∀ e ∈ added, ∀ b, Mapping.get? e.1 base = some b →
      ∀ trail, addAt e.2 b trail = .ok (merged e.1)) :
    ∃ filled, addEntries added base trail = .ok filled ∧
      Mapping.keys filled
        = Mapping.keys base ++ (Mapping.keys added).filter (· ∉ Mapping.keys base) ∧
      ∀ key, Mapping.get? key filled
        = filledUnder merged (Mapping.get? key base) (Mapping.get? key added) key := by
  induction added generalizing base with
  | nil =>
    refine ⟨base, rfl, by simp, fun key => ?_⟩
    cases Mapping.get? key base <;> rfl
  | cons e rest ih =>
    obtain ⟨key, value⟩ := e
    rw [Mapping.keys_cons, List.nodup_cons] at unique
    have away : ∀ e ∈ rest, e.1 ≠ key := fun e member same =>
      unique.1 (same ▸ Mapping.mem_keys_of_mem member)
    have absent := Mapping.get?_eq_none_iff.mpr unique.1
    -- writing under `key` leaves the fillings of the remaining keys as they are
    have later : ∀ t, ∀ e ∈ rest, ∀ b, Mapping.get? e.1 (Mapping.insert key t base) = some b →
        ∀ trail, addAt e.2 b trail = .ok (merged e.1) := by
      intro t e member b found
      rw [Mapping.get?_insert, if_neg (away e member)] at found
      exact fits e (List.mem_cons_of_mem _ member) b found
    rw [addEntries]
    cases known : Mapping.get? key base with
    | none =>
      obtain ⟨filled, done, keys, read⟩ := ih unique.2 (later value)
      have new := Mapping.get?_eq_none_iff.mp known
      refine ⟨filled, done, ?_, fun probe => ?_⟩
      · rw [keys, Mapping.keys_insert, if_neg new, Mapping.keys_cons,
          List.filter_cons_of_pos (by simpa using new), List.append_assoc, List.singleton_append]
        congr 2
        refine List.filter_congr fun probe member => ?_
        have different : probe ≠ key := fun same => unique.1 (same ▸ member)
        simp [different]
      · rw [read, Mapping.get?_insert, Mapping.get?_cons]
        by_cases here : probe = key
        · simp [here, known, absent, filledUnder]
        · simp [here, Ne.symm here]
    | some existing =>
      have fitted := fits (key, value) List.mem_cons_self existing known (trail.child key)
      obtain ⟨filled, done, keys, read⟩ := ih unique.2 (later (merged key))
      have old := Mapping.mem_keys_of_get? known
      refine ⟨filled, ?_, ?_, fun probe => ?_⟩
      · dsimp only at fitted ⊢
        rw [fitted]
        exact done
      · rw [keys, Mapping.keys_insert, if_pos old, Mapping.keys_cons,
          List.filter_cons_of_neg (by simpa using old)]
      · rw [read, Mapping.get?_insert, Mapping.get?_cons]
        by_cases here : probe = key
        · simp [here, known, absent, filledUnder]
        · simp [here, Ne.symm here]

end ConfigSweep.Tree
