import ConfigSweep.Proofs.DeclarationOrder
import ConfigSweep.Proofs.PrintedScript
import ConfigSweep.Proofs.Slots

/-!
# The form of patches

What is known of a patch because it was read of a tree: the texts of its calls are trimmed, its
slots ascend, its keys are different and no directives, its groups are sorted, and its upserts are
in the order in which they apply.
-/

namespace ConfigSweep

namespace KeyedPatch

variable {α : Type}

/-- Upserts in the order in which they are read: without keys, or under different keys, ascending if
all of them stand for positions. -/
inductive OrderedUpserts : List (Option String × α) → Prop where
  | listed (as : List α) : OrderedUpserts (as.map fun a => (none, a))
  | named (named : Mapping α) (once : (Mapping.keys named).Nodup)
      (ordered : Mapping.byPosition named = named) :
      OrderedUpserts (named.map fun n => (some n.1, n.2))

/-- The patch is as it is read: its keys are all different, plain keys are no directives and groups
ascend. -/
structure WellKeyed (patch : KeyedPatch α) : Prop where
  once : (Mapping.keys (patch.entries ++ patch.groups)).Nodup
  plain : ∀ key ∈ Mapping.keys patch.entries, Keyword.isGroup key = false ∧
    key ∉ [Keyword.eval, Keyword.sweep, Keyword.operations, Keyword.upsert]
  groups : ∀ key ∈ Mapping.keys patch.groups, Keyword.isGroup key = true
  sorted : patch.groups.Pairwise fun a b => a.1 ≤ b.1
  upserts : OrderedUpserts patch.upserts

end KeyedPatch

section Declared

open Patch KeyedPatch

variable {entries rest plain : Mapping Tree} {patch : KeyedPatch Patch}

theorem Mapping.Applies.perm {α : Type} {named ordered : Mapping α} (order : named.Applies ordered) :
    ordered.Perm named := by
  unfold Applies at order
  split at order
  · exact order.1
  · exact .of_eq order

/-- The order in which upserts apply is in order. -/
theorem Mapping.Applies.byPosition_eq {α β : Type} {named ordered : Mapping α} {ns : Mapping β}
    (order : named.Applies ordered) (keys : Mapping.keys ns = Mapping.keys ordered) :
    Mapping.byPosition ns = ns := by
  unfold Applies at order
  split at order
  · obtain ⟨-, ascending, -⟩ := order
    have ranks : (Mapping.keys ns).Pairwise fun a b => Position.rank a ≤ Position.rank b := by
      rw [keys]
      exact List.pairwise_map.mpr ascending
    have sorted := (List.pairwise_map.mp ranks).imp fun le => decide_eq_true le
    unfold byPosition
    rw [List.mergeSort_of_pairwise sorted, ite_self]
  · next plain =>
    obtain rfl := order
    have none' : isPositional ns = false := by
      rw [isPositional_of_perm (.of_eq keys)]
      simpa using plain
    exact if_neg (by rw [none']; decide)

theorem orderedUpserts_of_upsertsFrom {directive : Option Tree} {us : List (Option String × Patch)}
    (once : ∀ named, directive = some (.mapping named) → (Mapping.keys named).Nodup)
    (read : UpsertsFrom directive us) : OrderedUpserts us := by
  cases read with
  | absent => exact .listed []
  | listed => exact .listed _
  | named order read =>
    have keys := keys_of_namedAs read
    have once' := (Mapping.keys_perm order.perm).nodup_iff.mpr (once _ rfl)
    exact .named _ (keys ▸ once') (order.byPosition_eq keys)

namespace KeyedPatch.DeclaredBy

/-- The keys of entries are plain. -/
theorem plain_keys (declared : patch.DeclaredBy (Mapping.plainEntries rest) entries)
    (spare : ∀ key ∈ [Keyword.eval, Keyword.sweep, Keyword.operations], key ∉ Mapping.keys rest) :
    ∀ key ∈ Mapping.keys patch.entries, Keyword.isGroup key = false ∧
      key ∉ [Keyword.eval, Keyword.sweep, Keyword.operations, Keyword.upsert] := by
  intro key member
  rw [keys_of_namedAs declared.entries] at member
  obtain ⟨e, inside, rfl⟩ := List.mem_map.mp member
  obtain ⟨inside, single, named⟩ := Mapping.mem_plainEntries.mp inside
  refine ⟨single, fun directive => ?_⟩
  rcases List.mem_append.mp (show e.1 ∈ [_, _, _] ++ [_] from directive) with other | upsert
  · exact spare e.1 other (Mapping.mem_keys_of_mem inside)
  · exact named (List.mem_singleton.mp upsert)

/-- The keys of groups are those of groups and ascend. -/
theorem group_keys (declared : patch.DeclaredBy plain entries) :
    (∀ key ∈ Mapping.keys patch.groups, Keyword.isGroup key = true) ∧
      (Mapping.keys patch.groups).Pairwise (· < ·) := by
  obtain ⟨sorted, moved, ascending, read⟩ := declared.groups
  rw [keys_of_namedAs read]
  constructor
  · intro key member
    obtain ⟨e, inside, rfl⟩ := List.mem_map.mp member
    exact (List.mem_filter.mp (moved.mem_iff.mp inside)).2
  · exact List.pairwise_map.mpr (ascending.imp Text.bytes_lt_iff.mp)

/-- A patch that is declared by a mapping is well keyed. -/
theorem wellKeyed (distinct : (Tree.mapping entries).Distinct)
    (spare : ∀ key ∈ [Keyword.eval, Keyword.sweep, Keyword.operations], key ∉ Mapping.keys rest)
    (declared : patch.DeclaredBy (Mapping.plainEntries rest) entries) : patch.WellKeyed := by
  obtain ⟨grouped, below⟩ := declared.group_keys
  have plain := declared.plain_keys spare
  refine ⟨?_, plain, grouped, (List.pairwise_map.mp below).imp le_of_lt, ?_⟩
  · rw [Mapping.keys_append, List.nodup_append]
    refine ⟨declared.once, below.imp ne_of_lt, ?_⟩
    rintro key first _ second rfl
    have single := (plain key first).1
    rw [grouped key second] at single
    cases single
  · refine orderedUpserts_of_upsertsFrom (fun named found => ?_) declared.upserts
    exact (Tree.distinctEntries_iff.mp distinct.2 _ (Mapping.mem_of_get? found)).1

end KeyedPatch.DeclaredBy

end Declared

namespace Patch

/-- What is known of a patch that was read, patches within it apart. -/
def AsRead : Patch → Prop
  | .scalar value => ofTree value = .ok (.scalar value)
  | .fromPrevious call => Text.trimmed call.expression = call.expression ∧ call.entry = none
  | .sparse slots => slots.Listed
  | .edits script payload => (∀ edit ∈ script, Edit.ofTree edit.toTree = .ok edit) ∧ payload.WellKeyed
  | .keyed patch => patch.WellKeyed
  | _ => True

section Reading

variable {t : Tree} {trail : Trail} {p : Patch}

/-- A patch that was read is as it is read. -/
theorem asRead_of_ofTreeAt (distinct : t.Distinct) (done : ofTreeAt t trail = .ok p) : p.AsRead := by
  cases ofTreeAt_iff.mp done with
  | scalar leaf plain => exact ofTreeAt_iff.mpr (.scalar leaf plain)
  | @fromPrevious _ name embedded => exact ⟨Text.trimmed_trimmed name, rfl⟩
  | fromRoot => trivial
  | list => trivial
  | sparse kind read =>
    have positional := isPositional_of_reading_sparse kind
    exact SparseList.listed_ofEntries
      (Mapping.isPositional_of_perm (.of_eq (NamedFrom.keys read)) ▸ positional)
  | edits kind scripted =>
    refine ⟨Script.reads_back scripted,
      (declaredBy_of_edits distinct.1 done).2.wellKeyed distinct fun key reserved => ?_⟩
    rw [← Mapping.get?_eq_none_iff, Mapping.get?_remove distinct.1]
    by_cases named : key = Keyword.operations
    · exact if_pos named
    · rw [if_neg named, Mapping.get?_eq_none_iff]
      exact absent_of_reading_script kind key (by simpa [named] using reserved)
  | keyed kind =>
    exact (declaredBy_of_keyed distinct.1 done).wellKeyed distinct (absent_of_reading_keyed kind)

theorem everywhere_asRead (distinct : t.Distinct) (done : ofTree t = .ok p) :
    p.Everywhere AsRead :=
  (readsEverywhere (fun _ _ _ distinct done => asRead_of_ofTreeAt distinct.here done)
    (Tree.Everywhere.distinct distinct)).node _ p done

end Reading

end Patch

end ConfigSweep
