import ConfigSweep.Proofs.ReadAnywhere
import ConfigSweep.Proofs.UpsertOrder

/-!
# The parts of a patch

A mapping is composed of parts, each of which is a patch on its own: every plain entry alone, the
groups in the order of their keys, and the upserts. The mapping can be read when its parts can, and
is read as the patch that is composed of theirs.
-/

namespace ConfigSweep

namespace Mapping

variable (entries : Mapping Tree)

/-- The entries that patch the values under their keys. -/
def plainEntries : Mapping Tree :=
  entries.filter fun e => !Keyword.isGroup e.1 && e.1 != Keyword.upsert

/-- The groups in the order of their keys. -/
def groupEntries : Mapping Tree :=
  (entries.filter fun e => Keyword.isGroup e.1).mergeSort fun a b => a.1 ≤ b.1

/-- The entries by ascending positions if all keys stand for positions, else as they are. -/
def byPosition {α : Type} (m : Mapping α) : Mapping α :=
  if isPositional m then m.mergeSort fun a b => Position.rank a.1 ≤ Position.rank b.1 else m

/-- The patches of an upsert directive in their order; without a directive there are none. -/
def upsertItems? : Option Tree → Option (List Tree)
  | none => some []
  | some (.list items) => some items
  | some (.mapping named) => some ((byPosition named).map Prod.snd)
  | some _ => none

/-- The patches that a mapping is composed of. There are none if its upserts are no directive. -/
def parts? : Option (List Tree) :=
  (upsertItems? (get? Keyword.upsert entries)).map fun upserts =>
    (plainEntries entries).map (fun e => .mapping [e]) ++
      (groupEntries entries).map Prod.snd ++ upserts

/-- The mapping asks for nothing but its entries, groups and upserts, and no plain key stands for a
position. -/
structure Composed : Prop where
  unique : (keys entries).Nodup
  noCall : has Keyword.eval entries = false
  noAxis : has Keyword.sweep entries = false
  noScript : has Keyword.operations entries = false
  noPosition : ∀ e ∈ plainEntries entries, Position.isToken e.1 = false

end Mapping

section Reading

open Patch

variable {entries : Mapping Tree} {trail : Trail} {parts : List Part}

theorem Position.isToken_of_isGroup {key : String} (group : Keyword.isGroup key = true) :
    isToken key = false := by
  obtain ⟨rest, whole⟩ := List.isPrefixOf_iff_prefix.mp group
  unfold isToken ofToken?
  rw [← whole]
  rfl

namespace Mapping

theorem mem_plainEntries {e : String × Tree} : e ∈ plainEntries entries ↔
    e ∈ entries ∧ Keyword.isGroup e.1 = false ∧ e.1 ≠ Keyword.upsert := by
  simp [plainEntries]

theorem Composed.isPositional (composed : entries.Composed) :
    Mapping.isPositional entries = false := by
  cases entries with
  | nil => rfl
  | cons e rest =>
    have first : Position.isToken e.1 = false := by
      by_cases group : Keyword.isGroup e.1 = true
      · exact Position.isToken_of_isGroup group
      · by_cases directive : e.1 = Keyword.upsert
        · rw [directive]
          decide
        · exact composed.noPosition e
            (mem_plainEntries.mpr ⟨List.mem_cons_self, by simpa using group, directive⟩)
    simp [Mapping.isPositional, first]

theorem mem_byPosition {α : Type} {m : Mapping α} {e : String × α} : e ∈ byPosition m ↔ e ∈ m := by
  unfold byPosition
  split
  · exact List.mem_mergeSort
  · exact Iff.rfl

/-- The order does not depend on the values. -/
theorem byPosition_map {α β : Type} (f : α → β) (m : Mapping α) :
    byPosition (m.map fun e => (e.1, f e.2)) = (byPosition m).map fun e => (e.1, f e.2) := by
  have sorted : (m.mergeSort fun a b => Position.rank a.1 ≤ Position.rank b.1).map
        (fun e => (e.1, f e.2))
      = (m.map fun e => (e.1, f e.2)).mergeSort fun a b => Position.rank a.1 ≤ Position.rank b.1 :=
    List.map_mergeSort fun a _ b _ => rfl
  unfold byPosition
  rw [isPositional_of_perm (.of_eq (keys_map_values f m))]
  split
  · exact sorted.symm
  · rfl

/-- A plain entry alone is composed and plain. -/
theorem Composed.alone (composed : entries.Composed) {e : String × Tree}
    (member : e ∈ plainEntries entries) : Composed [e] ∧ e ∈ plainEntries [e] := by
  obtain ⟨inside, plain⟩ := mem_plainEntries.mp member
  have absent : ∀ key, has key entries = false → has key [e] = false := by
    intro key absent
    rw [Bool.eq_false_iff, Ne, has_iff] at absent ⊢
    intro there
    obtain rfl := List.mem_singleton.mp there
    exact absent (mem_keys_of_mem inside)
  refine ⟨⟨List.nodup_singleton _, absent _ composed.noCall, absent _ composed.noAxis,
    absent _ composed.noScript, fun d single => ?_⟩, mem_plainEntries.mpr ⟨by simp, plain⟩⟩
  obtain rfl := List.mem_singleton.mp (mem_plainEntries.mp single).1
  exact composed.noPosition d member

theorem Composed.reading (composed : entries.Composed) : reading entries = .keyed := by
  have absent : ∀ {key}, has key entries = false → key ∉ keys entries := has_eq_false_iff.mp
  exact reading_eq_iff.mpr (.keyed (absent composed.noCall) (absent composed.noAxis)
    (absent composed.noScript) composed.isPositional)

theorem Composed.ofTree_eq_ok (composed : entries.Composed) {p : Patch} :
    ofTree (.mapping entries) = .ok p ↔
      ∃ parts, PartsFrom .root entries parts ∧ .keyed (ofParts parts) = p :=
  ofTreeAt_keyed_eq_ok composed.reading

end Mapping

namespace Patch

theorem TreesFrom.unique {ts : List Tree} {ps qs : List Patch} (first : TreesFrom ts ps)
    (second : TreesFrom ts qs) : ps = qs :=
  Except.ok.inj ((mapM_eq_ok.mpr first).symm.trans (mapM_eq_ok.mpr second))

theorem NamedFrom.trees {below : String → Trail} {named : List (String × Patch)}
    (read : NamedFrom below entries named) :
    TreesFrom (entries.map Prod.snd) (named.map Prod.snd) := by
  rw [TreesFrom, List.forall₂_map_left_iff, List.forall₂_map_right_iff]
  exact read.imp fun _ _ both => ofTreeAt_eq_ok.mp both.2

theorem NamedFrom.unique {below : String → Trail} {named named' : List (String × Patch)}
    (first : NamedFrom below entries named) (second : NamedFrom below entries named') :
    named = named' := by
  refine List.right_unique_forall₂' (fun e n n' here there => ?_) first second
  exact Prod.ext (here.1.symm.trans there.1) (Except.ok.inj (here.2.symm.trans there.2))

section OfParts

variable (read : PartsFrom trail entries parts)

include read

theorem entries_ofParts :
    NamedFrom trail.child (Mapping.plainEntries entries) (ofParts parts).entries := by
  unfold Mapping.plainEntries
  rw [← List.filterMap_eq_filter]
  refine forall₂_filterMap read fun e part from' => ?_
  cases from' with
  | group p named => simp [named, Part.plain?, Option.guard]
  | upserts us named => simp [named, Part.plain?, Option.guard]
  | plain p single named reads =>
    simp only [single, Part.plain?, Option.guard, Bool.not_false, bne_iff_ne.mpr named,
      Bool.true_and, if_true]
    exact .some ⟨rfl, reads⟩

theorem groups_ofParts :
    NamedFrom trail.child (Mapping.groupEntries entries) (ofParts parts).groups := by
  refine forall₂_mergeSort ?_ fun a b c d first second => by rw [first.1, second.1]
  rw [← List.filterMap_eq_filter]
  refine forall₂_filterMap read fun e part from' => ?_
  cases from' with
  | group p named reads =>
    simp only [named, Part.group?, Option.guard, if_true]
    exact .some ⟨rfl, reads⟩
  | upserts us named =>
    have single : Keyword.isGroup Keyword.upsert = false := by decide
    simp [named, single, Part.group?, Option.guard]
  | plain p single => simp [single, Part.group?, Option.guard]

end OfParts

section Upserts

variable {directive : Tree} {items : List Tree}

theorem NamedFrom.byPosition {below : String → Trail} {named : List (String × Patch)}
    (read : NamedFrom below entries named) :
    NamedFrom below (Mapping.byPosition entries) (Mapping.byPosition named) := by
  unfold Mapping.byPosition
  rw [Mapping.isPositional_of_perm (.of_eq (NamedFrom.keys read))]
  split
  · exact forall₂_mergeSort read fun a b c d first second => by rw [first.1, second.1]
  · exact read

/-- The patches of a directive are those of its items. -/
theorem upsertsOf_items (split : Mapping.upsertItems? (some directive) = some items)
    {us : List (Option String × Patch)} (done : upsertsOf directive trail = .ok us) :
    TreesFrom items (us.map Prod.snd) := by
  cases upsertsOf_iff.mp done with
  | items read =>
    obtain rfl := Option.some.inj split
    rw [List.map_map, Function.comp_def, List.map_id']
    exact ofItems_eq_ok.mp read
  | @named _ patches read =>
    obtain rfl := Option.some.inj split
    have ordered : (orderUpserts patches).map Prod.snd = (Mapping.byPosition patches).map Prod.snd :=
      List.map_map
    rw [ordered]
    exact read.byPosition.trees

/-- A directive can be read when its items can. -/
theorem exists_upsertsOf (split : Mapping.upsertItems? (some directive) = some items)
    (each : ∀ t ∈ items, ∃ p, ofTree t = .ok p) : ∃ us, upsertsOf directive trail = .ok us := by
  cases directive with
  | list trees =>
    obtain rfl := Option.some.inj split
    obtain ⟨ps, read⟩ := exists_forall₂ each
    exact ⟨_, upsertsOf_iff.mpr (.items (ofItems_eq_ok.mpr read))⟩
  | mapping named =>
    obtain rfl := Option.some.inj split
    have values : ∀ e ∈ named, ∃ n : String × Patch,
        e.1 = n.1 ∧ ofTreeAt e.2 (trail.child e.1) = .ok n.2 := by
      intro e member
      obtain ⟨p, reads⟩ := each e.2 (List.mem_map.mpr ⟨e, Mapping.mem_byPosition.mpr member, rfl⟩)
      exact ⟨(e.1, p), rfl, ofTreeAt_eq_ok.mpr reads⟩
    obtain ⟨patches, read⟩ := exists_forall₂ values
    exact ⟨_, upsertsOf_iff.mpr (.named read)⟩
  | _ => cases split

end Upserts

/-- The upserts of the payload are those of the directive, in their order. -/
theorem upserts_ofParts_items (unique : (Mapping.keys entries).Nodup)
    (read : PartsFrom trail entries parts) {items : List Tree}
    (split : Mapping.upsertItems? (Mapping.get? Keyword.upsert entries) = some items) :
    TreesFrom items ((ofParts parts).upserts.map Prod.snd) := by
  cases found : Mapping.get? Keyword.upsert entries with
  | some directive =>
    rw [found] at split
    exact upsertsOf_items split (upserts_ofParts unique read (Mapping.mem_of_get? found))
  | none =>
    rw [found] at split
    obtain rfl := Option.some.inj split
    have none' : parts.filterMap Part.upserts? = [] := by
      refine List.filterMap_eq_nil_iff.mpr fun part member => ?_
      obtain ⟨e, inside, from'⟩ := exists_left read part member
      cases from' with
      | group => rfl
      | plain => rfl
      | upserts us named =>
        exact absurd (named ▸ Mapping.mem_keys_of_mem inside) (Mapping.get?_eq_none_iff.mp found)
    unfold ofParts
    rw [none']
    exact .nil

/-- A mapping can be read when its parts can. -/
theorem exists_parts (unique : (Mapping.keys entries).Nodup)
    (plain : ∀ e ∈ Mapping.plainEntries entries, ∃ p, ofTree e.2 = .ok p)
    (groups : ∀ e ∈ Mapping.groupEntries entries, ∃ p, ofTree e.2 = .ok p) {items : List Tree}
    (split : Mapping.upsertItems? (Mapping.get? Keyword.upsert entries) = some items)
    (upserts : ∀ t ∈ items, ∃ p, ofTree t = .ok p) : ∃ parts, PartsFrom trail entries parts := by
  refine exists_forall₂ fun e member => ?_
  by_cases group : Keyword.isGroup e.1 = true
  · have listed : e ∈ Mapping.groupEntries entries :=
      List.mem_mergeSort.mpr (List.mem_filter.mpr ⟨member, group⟩)
    obtain ⟨p, reads⟩ := groups e listed
    exact ⟨_, .group p group (ofTreeAt_eq_ok.mpr reads)⟩
  · by_cases named : e.1 = Keyword.upsert
    · rw [← named, Mapping.get?_of_mem unique member] at split
      obtain ⟨us, reads⟩ := exists_upsertsOf split upserts
      exact ⟨_, .upserts us named reads⟩
    · have single : Keyword.isGroup e.1 = false := by simpa using group
      obtain ⟨p, reads⟩ := plain e (Mapping.mem_plainEntries.mpr ⟨member, single, named⟩)
      exact ⟨_, .plain p single named (ofTreeAt_eq_ok.mpr reads)⟩

end Patch

end Reading

end ConfigSweep
