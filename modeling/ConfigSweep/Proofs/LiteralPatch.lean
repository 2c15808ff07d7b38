import ConfigSweep.Proofs.KeyOrder

/-!
# Patches of plain data

A tree without reserved keys and calls is read as plain data: a scalar, a list, a list with holes or a
mapping of patches of plain data, as the tree itself is.
-/

namespace ConfigSweep

namespace Tree

/-- The node asks for nothing: its keys are distinct, none is reserved, and there is no call. -/
structure PlainData (t : Tree) : Prop where
  unique : t.nodeKeys.Nodup
  unreserved : t.Unreserved
  silent : t.asksForCall = false

theorem everywhere_plainData {t : Tree} (distinct : t.Distinct)
    (unreserved : t.Everywhere Unreserved) (silent : t.Silent) : t.Everywhere PlainData := by
  have all := (Everywhere.distinct distinct).and (unreserved.and silent)
  refine Everywhere.imp (fun node told => ?_) all
  obtain ⟨unique, free, quiet⟩ := told
  exact ⟨nodup_nodeKeys unique, free, quiet⟩

end Tree

namespace Patch

/-- The patch for the value that a step leads to. -/
def place? : Patch → Step → Option Patch
  | .list items, .index position => items[position]?
  | .sparse slots, .index position => slots.at? position
  | .keyed patch, .key name => Mapping.get? name patch.entries
  | _, _ => none

/-- The patch itself brings nothing but data. -/
def BringsData : Patch → Prop
  | .scalar value => value.isLeaf = true
  | .list _ => True
  | .sparse slots => slots.Ascending
  | .keyed patch => (Mapping.keys patch.entries).Nodup ∧
    Mapping.isPositional patch.entries = false ∧ patch.groups = [] ∧ patch.upserts = []
  | _ => False

/-- The patch is made of scalars, lists, lists with holes and mappings only. -/
abbrev Literal (p : Patch) : Prop :=
  p.Everywhere BringsData

theorem mem_of_place? {p q : Patch} {step : Step} (there : p.place? step = some q) :
    q ∈ p.children := by
  cases p with
  | list items =>
    cases step with
    | index position => exact List.mem_of_getElem? there
    | key name => cases there
  | sparse slots =>
    cases step with
    | index position =>
      obtain ⟨slot, found, rfl⟩ := Option.map_eq_some_iff.mp there
      exact List.mem_map_of_mem (List.mem_of_find?_eq_some found)
    | key name => cases there
  | keyed patch =>
    cases step with
    | key name => exact KeyedPatch.mem_patches_of_entry (Mapping.mem_of_get? there)
    | index position => cases there
  | _ => cases step <;> cases there

theorem Literal.here {p : Patch} (literal : p.Literal) : p.BringsData := by
  cases literal with
  | intro here within => exact here

theorem Literal.place? {p q : Patch} {step : Step} (literal : p.Literal)
    (there : p.place? step = some q) : q.Literal := by
  cases literal with
  | intro here within => exact within q (mem_of_place? there)

/-- Entries and the patches that they are read as. -/
abbrev EntriesFrom (entries : Mapping Tree) (named : List (String × Patch)) : Prop :=
  NamedFrom (fun _ => .root) entries named

/-- What a node of plain data is read as. -/
inductive DataFrom : Tree → Patch → Prop where
  | scalar {t : Tree} (leaf : t.isLeaf = true) : DataFrom t (.scalar t)
  | list {items : List Tree} {ps : List Patch} (read : TreesFrom items ps) :
      DataFrom (.list items) (.list ps)
  | sparse {entries : Mapping Tree} {named : List (String × Patch)}
      (positional : Mapping.isPositional entries = true) (read : EntriesFrom entries named) :
      DataFrom (.mapping entries) (.sparse (SparseList.ofEntries named))
  | keyed {entries : Mapping Tree} {named : List (String × Patch)}
      (plain : Mapping.isPositional entries = false) (read : EntriesFrom entries named) :
      DataFrom (.mapping entries) (.keyed { entries := named })

section Reading

variable {t : Tree} {p : Patch} {trail : Trail} {entries : Mapping Tree}

theorem absent_of_unreserved (unreserved : (Tree.mapping entries).Unreserved) (key : String)
    (reserved : Keyword.isReserved key = true) : key ∉ Mapping.keys entries := by
  intro member
  rw [unreserved entries rfl key member] at reserved
  cases reserved

theorem reading_of_unreserved (unreserved : (Tree.mapping entries).Unreserved) :
    reading entries = if Mapping.isPositional entries then .sparse else .keyed := by
  have absent := absent_of_unreserved unreserved
  exact reading_of_absent (absent _ (by decide)) (absent _ (by decide)) (absent _ (by decide))

theorem plainEntries_of_unreserved (unreserved : (Tree.mapping entries).Unreserved) :
    Mapping.plainEntries entries = entries ∧ Mapping.groupEntries entries = [] := by
  have single : ∀ e ∈ entries, Keyword.isGroup e.1 = false := by
    intro e member
    have free := unreserved entries rfl e.1 (Mapping.mem_keys_of_mem member)
    exact (Bool.or_eq_false_iff.mp free).1
  constructor
  · refine List.filter_eq_self.mpr fun e member => ?_
    have named : e.1 ≠ Keyword.upsert := by
      intro same
      exact absent_of_unreserved unreserved e.1 (by rw [same]; decide)
        (Mapping.mem_keys_of_mem member)
    simp [single e member, named]
  · unfold Mapping.groupEntries
    rw [List.filter_eq_nil_iff.mpr fun e member => by simp [single e member], List.mergeSort_nil]

/-- A node of plain data is read as what it is. -/
theorem dataFrom_of_ofTreeAt (plain : t.PlainData) (done : ofTreeAt t trail = .ok p) :
    DataFrom t p := by
  cases ofTreeAt_iff.mp done with
  | scalar leaf => exact .scalar leaf
  | fromPrevious embedded =>
    have silent : (embeddedCall? _).isSome = false := plain.silent
    rw [embedded] at silent
    cases silent
  | fromRoot kind =>
    rw [reading_of_unreserved plain.unreserved] at kind
    split at kind <;> cases kind
  | list read => exact .list (ofItems_eq_ok.mp read)
  | sparse kind read =>
    exact .sparse (isPositional_of_reading_sparse kind) (read.anywhere fun e _ => readsAnywhere e.2)
  | edits kind =>
    rw [reading_of_unreserved plain.unreserved] at kind
    split at kind <;> cases kind
  | @keyed entries parts kind read =>
    obtain ⟨all, none'⟩ := plainEntries_of_unreserved plain.unreserved
    have named := entries_ofParts read
    have groups := groups_ofParts read
    have noUpserts : Mapping.get? Keyword.upsert entries = none :=
      Mapping.get?_eq_none_iff.mpr (absent_of_unreserved plain.unreserved _ (by decide))
    have upserts : TreesFrom [] ((ofParts parts).upserts.map Prod.snd) :=
      upserts_ofParts_items plain.unique read (congrArg Mapping.upsertItems? noUpserts)
    rw [all] at named
    rw [none', NamedFrom, List.forall₂_nil_left_iff] at groups
    rw [TreesFrom, List.forall₂_nil_left_iff, List.map_eq_nil_iff] at upserts
    have whole : ofParts parts = { entries := (ofParts parts).entries } := by
      rw [KeyedPatch.mk.injEq]
      exact ⟨rfl, groups, upserts⟩
    rw [whole]
    exact .keyed (isPositional_of_reading_keyed kind) (named.anywhere fun e _ => readsAnywhere e.2)

theorem DataFrom.bringsData (from' : DataFrom t p) (unique : t.nodeKeys.Nodup) : p.BringsData := by
  cases from' with
  | scalar leaf => exact leaf
  | list read => trivial
  | sparse positional read => exact SparseList.ascending_ofEntries _
  | keyed plain read =>
    rw [Mapping.isPositional_eq, NamedFrom.keys read, ← Mapping.isPositional_eq] at plain
    exact ⟨NamedFrom.keys read ▸ unique, plain, rfl, rfl⟩

/-- A tree of plain data is read as a literal patch. -/
theorem literal_of_ofTree (plain : t.Everywhere Tree.PlainData) (done : ofTree t = .ok p) :
    p.Literal :=
  (readsEverywhere (fun _ _ _ plain done =>
    (dataFrom_of_ofTreeAt plain.here done).bringsData plain.here.unique) plain).node .root p done

end Reading

end Patch

end ConfigSweep
