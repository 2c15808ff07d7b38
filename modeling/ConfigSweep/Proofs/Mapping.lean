import ConfigSweep.Mapping
import ConfigSweep.Proofs.Outcome
import Mathlib.Data.List.Nodup
import Mathlib.Data.List.Perm.Basic

/-!
# Laws of ordered mappings

How reading, writing and removing act on the value under a key and on the order of keys. Two
mappings that list the same distinct keys in the same order and agree under every key are equal,
so an operation is known once its keys and its values are.
-/

namespace ConfigSweep.Mapping

variable {α β : Type}

@[simp] theorem keys_nil : keys ([] : Mapping α) = [] := rfl

@[simp] theorem keys_cons (e : String × α) (m : Mapping α) : keys (e :: m) = e.1 :: keys m := rfl

@[simp] theorem keys_append (m n : Mapping α) : keys (m ++ n) = keys m ++ keys n :=
  List.map_append

theorem keys_map_values (f : α → β) (m : Mapping α) : keys (m.map fun e => (e.1, f e.2)) = keys m :=
  List.map_map

@[simp] theorem get?_nil (key : String) : get? key ([] : Mapping α) = none := rfl

theorem get?_cons (key : String) (e : String × α) (m : Mapping α) :
    get? key (e :: m) = if e.1 = key then some e.2 else get? key m := rfl

theorem mem_keys_of_mem {key : String} {v : α} {m : Mapping α} (member : (key, v) ∈ m) :
    key ∈ keys m :=
  List.mem_map.mpr ⟨(key, v), member, rfl⟩

theorem mem_of_get? {key : String} {m : Mapping α} {v : α} (found : get? key m = some v) :
    (key, v) ∈ m := by
  induction m with
  | nil => simp at found
  | cons e rest ih =>
    rw [get?_cons] at found
    split at found
    · next same =>
      obtain rfl := Option.some.inj found
      simp [← same]
    · exact List.mem_cons_of_mem _ (ih found)

theorem get?_eq_none_iff {key : String} {m : Mapping α} :
    get? key m = none ↔ key ∉ keys m := by
  induction m with
  | nil => simp
  | cons e rest ih =>
    rw [get?_cons, keys_cons, List.mem_cons]
    split
    · next same => simp [same]
    · next different => simp [ih, Ne.symm different]

theorem exists_get?_of_mem_keys {key : String} {m : Mapping α} (member : key ∈ keys m) :
    ∃ v, get? key m = some v := by
  cases found : get? key m with
  | none => exact absurd member (get?_eq_none_iff.mp found)
  | some v => exact ⟨v, rfl⟩

theorem mem_keys_of_get? {key : String} {m : Mapping α} {v : α} (found : get? key m = some v) :
    key ∈ keys m :=
  mem_keys_of_mem (mem_of_get? found)

theorem get?_of_mem {key : String} {m : Mapping α} {v : α} (unique : (keys m).Nodup)
    (member : (key, v) ∈ m) : get? key m = some v := by
  induction m with
  | nil => simp at member
  | cons e rest ih =>
    rw [keys_cons, List.nodup_cons] at unique
    rw [get?_cons]
    rcases List.mem_cons.mp member with rfl | below
    · simp
    · have different : e.1 ≠ key := by
        intro same
        exact unique.1 (same ▸ mem_keys_of_mem below)
      rw [if_neg different]
      exact ih unique.2 below

theorem has_iff {key : String} {m : Mapping α} : has key m = true ↔ key ∈ keys m := by
  unfold has
  rw [Option.isSome_iff_ne_none, ne_eq, get?_eq_none_iff, not_not]

theorem has_eq_false_iff {key : String} {m : Mapping α} : has key m = false ↔ key ∉ keys m := by
  rw [Bool.eq_false_iff, Ne, has_iff]

theorem get?_append (key : String) (m n : Mapping α) :
    get? key (m ++ n) = (get? key m).or (get? key n) := by
  induction m with
  | nil => simp
  | cons e rest ih =>
    rw [List.cons_append, get?_cons, get?_cons, ih]
    split <;> simp

theorem keys_perm {m n : Mapping α} (same : m.Perm n) : (keys m).Perm (keys n) :=
  same.map Prod.fst

theorem get?_perm {m n : Mapping α} (unique : (keys m).Nodup) (same : m.Perm n) (key : String) :
    get? key m = get? key n := by
  cases found : get? key n with
  | none =>
    rw [get?_eq_none_iff] at found ⊢
    exact fun member => found ((keys_perm same).mem_iff.mp member)
  | some v => exact get?_of_mem unique (same.mem_iff.mpr (mem_of_get? found))

/-- Equal keys in equal order and equal values make equal mappings. -/
theorem ext_get? {m n : Mapping α} (sameKeys : keys m = keys n) (unique : (keys m).Nodup)
    (sameValues : ∀ key, get? key m = get? key n) : m = n := by
  induction m generalizing n with
  | nil => cases n with
    | nil => rfl
    | cons e n => simp at sameKeys
  | cons d m ih => cases n with
    | nil => simp at sameKeys
    | cons e n =>
      rw [keys_cons, keys_cons, List.cons.injEq] at sameKeys
      rw [keys_cons, List.nodup_cons] at unique
      have first := sameValues e.1
      rw [get?_cons, get?_cons, if_pos sameKeys.1, if_pos rfl] at first
      have rest : m = n := by
        refine ih sameKeys.2 unique.2 fun key => ?_
        by_cases atFirst : d.1 = key
        · have absent : key ∉ keys m := atFirst ▸ unique.1
          rw [get?_eq_none_iff.mpr absent, get?_eq_none_iff.mpr (sameKeys.2 ▸ absent)]
        · have later := sameValues key
          rwa [get?_cons, get?_cons, if_neg atFirst, if_neg (sameKeys.1 ▸ atFirst)] at later
      rw [rest, show d = e from Prod.ext sameKeys.1 (Option.some.inj first)]

section Writing

theorem get?_insert (key probe : String) (value : α) (m : Mapping α) :
    get? probe (insert key value m) = if probe = key then some value else get? probe m := by
  induction m with
  | nil =>
    simp only [insert, get?_cons, get?_nil, eq_comm]
  | cons e rest ih =>
    unfold insert
    split
    · next same =>
      rw [get?_cons, get?_cons, same]
      by_cases here : probe = key
      · simp [here]
      · simp [here, Ne.symm here]
    · next different =>
      rw [get?_cons, get?_cons, ih]
      by_cases here : e.1 = probe
      · have away : probe ≠ key := fun same => different (here.trans same)
        simp [here, away]
      · simp [here]

theorem keys_insert (key : String) (value : α) (m : Mapping α) :
    keys (insert key value m) = if key ∈ keys m then keys m else keys m ++ [key] := by
  induction m with
  | nil => simp [insert]
  | cons e rest ih =>
    unfold insert
    split
    · next same => simp [same]
    · next different =>
      rw [keys_cons, ih, keys_cons]
      simp only [List.mem_cons, Ne.symm different, false_or]
      split <;> simp

theorem mem_of_mem_insert {key : String} {value : α} {m : Mapping α} {e : String × α}
    (member : e ∈ insert key value m) : e = (key, value) ∨ e ∈ m := by
  induction m with
  | nil => exact .inl (List.mem_singleton.mp member)
  | cons first rest ih =>
    unfold insert at member
    split at member
    · next same =>
      rcases List.mem_cons.mp member with rfl | later
      · exact .inl (by rw [same])
      · exact .inr (List.mem_cons_of_mem _ later)
    · rcases List.mem_cons.mp member with rfl | later
      · exact .inr List.mem_cons_self
      · rcases ih later with here | before
        · exact .inl here
        · exact .inr (List.mem_cons_of_mem _ before)

theorem insert_of_absent {key : String} {m : Mapping α} (value : α) (absent : key ∉ keys m) :
    insert key value m = m ++ [(key, value)] := by
  induction m with
  | nil => rfl
  | cons e rest ih =>
    rw [keys_cons, List.mem_cons, not_or] at absent
    unfold insert
    rw [if_neg (Ne.symm absent.1), ih absent.2, List.cons_append]

theorem mem_keys_insert {key probe : String} {value : α} {m : Mapping α} :
    probe ∈ keys (insert key value m) ↔ probe = key ∨ probe ∈ keys m := by
  rw [keys_insert]
  split
  · next member => exact ⟨Or.inr, fun h => h.elim (fun same => same ▸ member) id⟩
  · simp [or_comm]

theorem insert_of_get? {key : String} {m : Mapping α} {value : α}
    (found : get? key m = some value) : insert key value m = m := by
  induction m with
  | nil => cases found
  | cons e rest ih =>
    rw [get?_cons] at found
    unfold insert
    split at found
    · next here =>
      obtain rfl := Option.some.inj found
      rw [if_pos here]
    · next away => rw [if_neg away, ih found]

/-- Entries whose keys are all different are kept as they come. -/
theorem ofEntries_eq {entries : List (String × α)} (unique : (keys entries).Nodup) :
    ofEntries entries = entries := by
  have folded : ∀ (entries : List (String × α)) (m : Mapping α), (keys (m ++ entries)).Nodup →
      entries.foldl (fun m e => m.insert e.1 e.2) m = m ++ entries := by
    intro entries
    induction entries with
    | nil => simp
    | cons e rest ih =>
      intro m unique
      have absent : e.1 ∉ keys m := by
        rw [keys_append, List.nodup_append] at unique
        exact fun member => unique.2.2 _ member e.1 (by simp) rfl
      rw [List.foldl_cons, insert_of_absent e.2 absent, ih _ (by simpa using unique)]
      simp
  exact folded entries [] unique

theorem insert_insert (key : String) (first second : α) (m : Mapping α) :
    insert key second (insert key first m) = insert key second m := by
  induction m with
  | nil => simp [insert]
  | cons e rest ih =>
    rw [insert, insert]
    split
    · next here => rw [insert, if_pos here]
    · next away => rw [insert, if_neg away, ih]

end Writing

section Removing

/-- Removing a key reorders the other entries but loses and adds none. -/
theorem remove_perm {key : String} {m : Mapping α} (unique : (keys m).Nodup) :
    (remove key m).Perm (m.filter fun e => decide (e.1 ≠ key)) := by
  induction m with
  | nil => simp [remove]
  | cons e rest ih =>
    rw [keys_cons, List.nodup_cons] at unique
    unfold remove
    split
    · next same =>
      have kept : rest.filter (fun e => decide (e.1 ≠ key)) = rest := by
        refine List.filter_eq_self.mpr fun d member => ?_
        have away : d.1 ≠ key := by
          intro equal
          exact unique.1 (same ▸ equal ▸ mem_keys_of_mem member)
        simpa using away
      rw [List.filter_cons_of_neg (by simp [same]), kept]
      cases last : rest.getLast? with
      | none => simp [List.getLast?_eq_none_iff.mp last]
      | some d =>
        have whole := List.dropLast_append_getLast? d last
        conv_rhs => rw [← whole]
        exact (List.perm_append_singleton d rest.dropLast).symm
    · next different =>
      rw [List.filter_cons_of_pos (by simp [different])]
      exact (ih unique.2).cons e

theorem mem_of_mem_remove {key : String} {m : Mapping α} {e : String × α} (member : e ∈ remove key m) :
    e ∈ m := by
  induction m with
  | nil => exact member
  | cons d rest ih =>
    unfold remove at member
    split at member
    · cases last : rest.getLast? with
      | none => rw [last] at member; cases member
      | some moved =>
        rw [last] at member
        rcases List.mem_cons.mp member with rfl | before
        · exact List.mem_cons_of_mem _ (List.mem_of_getLast? last)
        · exact List.mem_cons_of_mem _ (List.dropLast_subset _ before)
    · rcases List.mem_cons.mp member with rfl | later
      · exact List.mem_cons_self
      · exact List.mem_cons_of_mem _ (ih later)

theorem nodup_keys_remove {key : String} {m : Mapping α} (unique : (keys m).Nodup) :
    (keys (remove key m)).Nodup := by
  have kept : (keys (m.filter fun e => decide (e.1 ≠ key))).Nodup :=
    unique.sublist (List.filter_sublist.map Prod.fst)
  exact (keys_perm (remove_perm unique)).nodup_iff.mpr kept

theorem get?_filter (key probe : String) (m : Mapping α) :
    get? probe (m.filter fun e => decide (e.1 ≠ key)) = if probe = key then none else get? probe m := by
  induction m with
  | nil => simp
  | cons e rest ih =>
    by_cases same : e.1 = key
    · rw [List.filter_cons_of_neg (by simp [same]), ih, get?_cons]
      by_cases here : probe = key
      · simp [here]
      · simp [here, same, Ne.symm here]
    · rw [List.filter_cons_of_pos (by simp [same]), get?_cons, get?_cons, ih]
      by_cases here : e.1 = probe
      · have away : probe ≠ key := fun equal => same (here.trans equal)
        simp [here, away]
      · simp [here]

theorem get?_remove {key : String} {m : Mapping α} (unique : (keys m).Nodup) (probe : String) :
    get? probe (remove key m) = if probe = key then none else get? probe m := by
  rw [get?_perm (nodup_keys_remove unique) (remove_perm unique), get?_filter]

theorem remove_append {key : String} {m : Mapping α} (absent : key ∉ keys m) (n : Mapping α) :
    remove key (m ++ n) = m ++ remove key n := by
  induction m with
  | nil => rfl
  | cons e rest ih =>
    rw [keys_cons, List.mem_cons, not_or] at absent
    rw [List.cons_append, remove, if_neg (Ne.symm absent.1), ih absent.2, List.cons_append]

theorem remove_of_absent {key : String} {m : Mapping α} (absent : key ∉ keys m) :
    remove key m = m := by
  simpa [remove] using remove_append absent []

/-- Entries that are related under equal keys stay so when a key is removed. -/
theorem forall₂_remove {relation : String × α → String × β → Prop}
    (names : ∀ d e, relation d e → d.1 = e.1) {m : Mapping α} {n : Mapping β}
    (related : List.Forall₂ relation m n) (key : String) :
    List.Forall₂ relation (remove key m) (remove key n) := by
  induction related with
  | nil => exact .nil
  | @cons d e m n first rest ih =>
    obtain ⟨name, v⟩ := d
    obtain ⟨name', w⟩ := e
    obtain rfl : name = name' := names _ _ first
    rw [remove, remove]
    split
    · -- the last entry moves into the freed place on both sides
      have lasts := forall₂_getLast? rest
      generalize m.getLast? = last at lasts ⊢
      generalize n.getLast? = last' at lasts ⊢
      cases lasts with
      | none => exact .nil
      | some moved => exact .cons moved (forall₂_dropLast rest)
    · exact .cons first ih

end Removing

/-- Entries that are related under equal keys are found together. -/
theorem get?_of_forall₂ {relation : String × α → String × β → Prop}
    (names : ∀ d e, relation d e → d.1 = e.1) {m : Mapping α} {n : Mapping β}
    (related : List.Forall₂ relation m n) (key : String) :
    Option.Rel (fun a b => relation (key, a) (key, b)) (get? key m) (get? key n) := by
  induction related with
  | nil => exact .none
  | @cons d e m n first rest ih =>
    obtain ⟨name, v⟩ := d
    obtain ⟨name', w⟩ := e
    obtain rfl : name = name' := names _ _ first
    rw [get?_cons, get?_cons]
    split
    · next here => exact .some (here ▸ first)
    · exact ih

section Related

variable {relation : α → β → Prop} {m : Mapping α} {n : Mapping β}
  (related : List.Forall₂ (fun d e => d.1 = e.1 ∧ relation d.2 e.2) m n)

include related

theorem rel_get? (key : String) : Option.Rel relation (get? key m) (get? key n) := by
  have found := get?_of_forall₂ (fun _ _ both => both.1) related key
  generalize get? key m = a at found ⊢
  generalize get? key n = b at found ⊢
  cases found with
  | none => exact .none
  | some both => exact .some both.2

theorem has_congr {key : String} : has key m = has key n := by
  have found := rel_get? related key
  unfold has
  generalize get? key m = a at found ⊢
  generalize get? key n = b at found ⊢
  cases found <;> rfl

theorem forall₂_insert (key : String) {v : α} {w : β} (values : relation v w) :
    List.Forall₂ (fun d e => d.1 = e.1 ∧ relation d.2 e.2) (insert key v m) (insert key w n) := by
  induction related with
  | nil => exact .cons ⟨rfl, values⟩ .nil
  | @cons d e _ _ first rest ih =>
    rw [insert, insert, first.1]
    split
    · exact .cons ⟨rfl, values⟩ rest
    · exact .cons ⟨rfl, first.2⟩ ih

end Related

end ConfigSweep.Mapping
