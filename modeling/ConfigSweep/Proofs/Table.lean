import ConfigSweep.Table
import ConfigSweep.Proofs.Mapping

/-!
# Laws of sorted tables

Reading after writing, and the order of the keys, which keeps every key from occurring twice.
-/

namespace ConfigSweep.Table

variable {α : Type}

@[simp] theorem get?_empty (key : String) : (empty : Table α).get? key = none := rfl

theorem get?_insert (key probe : String) (value : α) (t : Table α) :
    (t.insert key value).get? probe = if probe = key then some value else t.get? probe := by
  obtain ⟨entries⟩ := t
  show Mapping.get? probe (insertEntry key value entries)
    = if probe = key then some value else Mapping.get? probe entries
  induction entries with
  | nil => simp only [insertEntry, Mapping.get?_cons, Mapping.get?_nil, eq_comm]
  | cons e rest ih =>
    unfold insertEntry
    split
    · rw [Mapping.get?_cons]
      simp only [eq_comm]
    · split
      · next same =>
        rw [Mapping.get?_cons, Mapping.get?_cons, ← same]
        by_cases here : probe = key
        · simp [here]
        · simp [here, Ne.symm here]
      · next different =>
        rw [Mapping.get?_cons, Mapping.get?_cons, ih]
        by_cases here : e.1 = probe
        · have away : probe ≠ key := fun same => different (here.trans same).symm
          simp [here, away]
        · simp [here]

/-- The keys ascend. -/
def Sorted (t : Table α) : Prop :=
  t.entries.Pairwise fun a b => a.1 < b.1

theorem sorted_empty : (empty : Table α).Sorted := List.Pairwise.nil

theorem mem_insertEntry {key : String} {value : α} {entries : List (String × α)}
    {e : String × α} (member : e ∈ insertEntry key value entries) :
    e = (key, value) ∨ e ∈ entries := by
  induction entries with
  | nil => exact .inl (List.mem_singleton.mp member)
  | cons d rest ih =>
    unfold insertEntry at member
    split at member
    · exact List.mem_cons.mp member
    · split at member
      · exact (List.mem_cons.mp member).imp_right (List.mem_cons_of_mem _)
      · rcases List.mem_cons.mp member with rfl | later
        · exact .inr List.mem_cons_self
        · exact (ih later).imp_right (List.mem_cons_of_mem _)

theorem sorted_insert {t : Table α} (sorted : t.Sorted) (key : String) (value : α) :
    (t.insert key value).Sorted := by
  obtain ⟨entries⟩ := t
  unfold Sorted insert at *
  dsimp only at *
  induction entries with
  | nil => exact List.pairwise_singleton _ _
  | cons e rest ih =>
    obtain ⟨first, others⟩ := List.pairwise_cons.mp sorted
    unfold insertEntry
    split
    · next below =>
      refine List.pairwise_cons.mpr ⟨fun d member => ?_, sorted⟩
      rcases List.mem_cons.mp member with rfl | later
      · exact below
      · exact String.lt_trans below (first d later)
    · next notBelow =>
      split
      · next same => exact List.pairwise_cons.mpr ⟨fun d later => same ▸ first d later, others⟩
      · next different =>
        refine List.pairwise_cons.mpr ⟨fun d member => ?_, ih others⟩
        rcases mem_insertEntry member with rfl | later
        · have reached : e.1 ≤ key := String.not_lt.mp notBelow
          exact String.not_le.mp fun back => different (String.le_antisymm back reached)
        · exact first d later

theorem Sorted.nodup_keys {t : Table α} (sorted : t.Sorted) : (Mapping.keys t.entries).Nodup := by
  refine List.pairwise_map.mpr (sorted.imp fun {a b} less => ?_)
  intro same
  exact String.lt_irrefl a.1 (same ▸ less)

theorem Sorted.mem_entries_iff {t : Table α} (sorted : t.Sorted) {key : String} {value : α} :
    (key, value) ∈ t.entries ↔ t.get? key = some value :=
  ⟨Mapping.get?_of_mem sorted.nodup_keys, Mapping.mem_of_get?⟩

/-- Entries whose keys are all different are found under their keys, and nothing else is. -/
theorem get?_ofEntries {entries : List (String × α)} (unique : (Mapping.keys entries).Nodup)
    {key : String} {value : α} :
    (ofEntries entries).get? key = some value ↔ (key, value) ∈ entries := by
  have folded : ∀ (entries : List (String × α)) (t : Table α), (Mapping.keys entries).Nodup →
      ((entries.foldl (fun t e => t.insert e.1 e.2) t).get? key = some value ↔
        (key, value) ∈ entries ∨ (key ∉ Mapping.keys entries ∧ t.get? key = some value)) := by
    intro entries
    induction entries with
    | nil => simp
    | cons e rest ih =>
      intro t unique
      obtain ⟨once, others⟩ := List.nodup_cons.mp unique
      rw [List.foldl_cons, ih _ others, get?_insert, Mapping.keys_cons, List.mem_cons,
        List.mem_cons, not_or]
      by_cases here : key = e.1
      · subst here
        have absent : (e.1, value) ∉ rest := fun member => once (Mapping.mem_keys_of_mem member)
        have first : ((e.1, value) = e) ↔ e.2 = value := by
          constructor
          · intro same; rw [← same]
          · intro same; rw [← same]
        simp only [absent, false_or, if_true, first, or_false, Option.some.injEq,
          not_true_eq_false, false_and]
        exact ⟨fun h => h.2, fun h => ⟨once, h⟩⟩
      · have other : ((key, value) = e) ↔ False :=
          iff_false_intro fun same => here (congrArg Prod.fst same)
        simp [here, other]
  have whole := folded entries empty unique
  simpa [ofEntries] using whole

theorem insertEntry_last {key : String} {value : α} {entries : List (String × α)}
    (below : ∀ e ∈ entries, e.1 < key) : insertEntry key value entries = entries ++ [(key, value)] := by
  induction entries with
  | nil => rfl
  | cons e rest ih =>
    rw [List.forall_mem_cons] at below
    have different : ¬ key = e.1 := fun same => String.lt_irrefl key (same ▸ below.1)
    rw [insertEntry, if_neg (String.lt_asymm below.1), if_neg different, ih below.2]
    rfl

/-- The entries of a table make up the table. -/
theorem Sorted.ofEntries {t : Table α} (sorted : t.Sorted) : ofEntries t.entries = t := by
  have folded : ∀ (entries done : List (String × α)),
      (done ++ entries).Pairwise (fun a b => a.1 < b.1) →
        entries.foldl (fun t e => t.insert e.1 e.2) ⟨done⟩ = (⟨done ++ entries⟩ : Table α) := by
    intro entries
    induction entries with
    | nil => intro done _; rw [List.foldl_nil, List.append_nil]
    | cons e rest ih =>
      intro done ascending
      have below := (List.pairwise_append.mp ascending).2.2
      have last : (⟨done⟩ : Table α).insert e.1 e.2 = ⟨done ++ [e]⟩ :=
        congrArg Table.mk (insertEntry_last fun d member => below d member e List.mem_cons_self)
      rw [List.append_cons] at ascending ⊢
      rw [List.foldl_cons, last, ih _ ascending]
  exact folded t.entries [] sorted

end ConfigSweep.Table
