import ConfigSweep.Proofs.AssignmentOrder
import ConfigSweep.Proofs.Writes

/-!
# Sessions from their record

The record of a session is read back as what it was written from: its tables list their keys in
ascending order, so entries that are written in turn make up the same tables. What is configured
depends on nothing but the record.
-/

namespace ConfigSweep

/-- A table of texts is read back from its entries. -/
theorem Record.texts_entries {t : Table String} (sorted : t.Sorted) :
    texts (.mapping (t.entries.map fun e => (e.1, Tree.str e.2))) = .ok t := by
  have read : (t.entries.map fun e => (e.1, Tree.str e.2)).mapM
      (fun e => do return (e.1, ← text e.2)) = .ok t.entries :=
    mapM_eq_ok.mpr (List.forall₂_map_left_iff.mpr (List.forall₂_same.mpr fun _ _ => rfl))
  exact bind_eq_ok.mpr ⟨_, rfl, bind_eq_ok.mpr ⟨_, read, congrArg Except.ok sorted.ofEntries⟩⟩

namespace AliasTable

variable {t : AliasTable}

/-- The tables list their keys in ascending order. -/
structure Ordered (t : AliasTable) : Prop where
  keys : t.keys.Sorted
  values : t.values.Sorted
  aliased : t.aliased.Sorted

theorem keptByWrites_ordered : KeptByWrites Ordered where
  value _ _ ordered := { ordered with values := Table.sorted_insert ordered.values _ _ }
  mark _ ordered := { ordered with aliased := Table.sorted_insert ordered.aliased _ _ }
  name _ _ ordered := { ordered with keys := Table.sorted_insert ordered.keys _ _ }

/-- The tables made of a sweep are ordered. -/
theorem ordered_ofSweep {sweep standard : Tree} (done : ofSweep sweep = .ok (t, standard)) :
    t.Ordered := by
  unfold ofSweep at done
  split at done
  · split at done
    · split at done
      · cases done
      · next split _ =>
        obtain ⟨registered, registers, done⟩ := bind_eq_ok.mp done
        obtain ⟨rfl, -⟩ := Prod.mk.inj (Except.ok.inj done)
        have start : Ordered { remainder := split.remainder } :=
          ⟨Table.sorted_empty, Table.sorted_empty, Table.sorted_empty⟩
        have left := keptByWrites_ordered.register start split.axes
        rwa [registers] at left
    · cases done
  · cases done

theorem readAliased_keys (sorted : t.aliased.Sorted) :
    readAliased (.list (t.aliased.keys.map .str)) = .ok t.aliased := by
  have read : (t.aliased.keys.map Tree.str).mapM (fun item => do return (← Record.text item, ()))
      = .ok t.aliased.entries := by
    rw [Table.keys, List.map_map]
    exact mapM_eq_ok.mpr (List.forall₂_map_left_iff.mpr (List.forall₂_same.mpr fun _ _ => rfl))
  exact bind_eq_ok.mpr ⟨_, rfl, bind_eq_ok.mpr ⟨_, read, congrArg Except.ok sorted.ofEntries⟩⟩

/-- The fields of a table that are always kept. -/
def keptFields (t : AliasTable) : Mapping Tree :=
  [(Field.keys, .mapping (t.keys.entries.map fun e => (e.1, Tree.str e.2))),
    (Field.values, .mapping t.values.entries), (Field.remainder, t.remainder)]

/-- A table is read from these fields and what follows them, if that is read as its marks. -/
theorem ofEntries_keptFields (ordered : t.Ordered) {rest : Mapping Tree}
    (marks : ∀ e ∈ rest, e = (Field.aliased, .list (t.aliased.keys.map .str)))
    (found : Record.fieldOr Field.aliased readAliased .empty rest = .ok t.aliased) :
    ofEntries (t.keptFields ++ rest) = .ok t := by
  have keys : readKeys (.mapping (t.keys.entries.map fun e => (e.1, Tree.str e.2))) = .ok t.keys :=
    Record.texts_entries ordered.keys
  have values : readValues (.mapping t.values.entries) = .ok t.values :=
    congrArg Except.ok ordered.values.ofEntries
  refine bind_eq_ok.mpr ⟨(), forM_eq_ok.mpr fun e member => ?_, ?_⟩
  · rcases List.mem_append.mp member with always | last
    · simp only [keptFields, List.mem_cons, List.not_mem_nil, or_false] at always
      rcases always with rfl | rfl | rfl
      · exact congrArg discard keys
      · exact congrArg discard values
      · rfl
    · obtain rfl := marks e last
      exact congrArg discard (readAliased_keys ordered.aliased)
  · exact bind_eq_ok.mpr ⟨t.keys, keys, bind_eq_ok.mpr ⟨t.values, values,
      bind_eq_ok.mpr ⟨t.remainder, rfl, bind_eq_ok.mpr ⟨t.aliased, found, rfl⟩⟩⟩⟩

/-- An ordered table is read back from its record. -/
theorem ofTree_toTree (ordered : t.Ordered) : ofTree t.toTree = .ok t := by
  unfold toTree
  by_cases none' : t.aliased.size = 0
  · rw [if_pos none']
    have empty : .empty = t.aliased := congrArg Table.mk (List.length_eq_zero_iff.mp none').symm
    exact ofEntries_keptFields ordered nofun (congrArg Except.ok empty)
  · rw [if_neg none']
    exact ofEntries_keptFields ordered (fun _ => List.mem_singleton.mp)
      (readAliased_keys ordered.aliased)

end AliasTable

namespace Metadata

/-- The record of ordered tables is read back as what it was written from. -/
theorem ofTree_toTree {m : Metadata} (ordered : m.aliases.Ordered) : ofTree m.toTree = .ok m := by
  have aliases := AliasTable.ofTree_toTree ordered
  refine bind_eq_ok.mpr ⟨(), forM_eq_ok.mpr fun e member => ?_,
    bind_eq_ok.mpr ⟨m.base, rfl, bind_eq_ok.mpr ⟨m.aliases, aliases, rfl⟩⟩⟩
  simp only [List.mem_cons, List.not_mem_nil, or_false] at member
  rcases member with rfl | rfl
  · rfl
  · exact congrArg discard aliases

end Metadata

namespace Session

/-- A session that was made for a sweep is kept under the names of its fields and read back without
loss, and the session made of what was read configures every assignment as the first one does. -/
theorem configure_reread (base sweep : Tree) (s : Session) (created : create base sweep = .ok s) :
    (∃ fields, s.metadata.toTree
        = .mapping [("base_config", base), ("compression", .mapping fields)] ∧
      Mapping.keys fields = ["keys", "values", "remaining_bunch"]
        ++ if s.metadata.aliases.aliased.size = 0 then [] else ["aliased_axes"]) ∧
      ∃ m, Metadata.ofTree s.metadata.toTree = .ok m ∧ m = s.metadata ∧
        ∀ evaluator assignment,
          (ofMetadata m).configure evaluator assignment = s.configure evaluator assignment := by
  obtain ⟨sameBase, standard, standardized⟩ := create_eq_ok created
  refine ⟨⟨_, by rw [Metadata.toTree, sameBase, AliasTable.toTree], ?_⟩,
    s.metadata, Metadata.ofTree_toTree (AliasTable.ordered_ofSweep standardized), rfl,
    fun _ _ => rfl⟩
  split <;> rfl

section Widths

/-- An axis that has an identifier and aliases for its values, and a value beside it. -/
def widthsSweep : Tree :=
  .mapping [("method", .str "grid"), ("parameters", .mapping [
    ("width", .mapping [("sweep", .bool true), ("sweep_identifier", .str "w"),
      ("sweep_alias", .list [.str "s", .str "l"]), ("values", .list [.int 8, .int 64])]),
    ("seed", .int 7)])]

def widthsBase : Tree :=
  .mapping [("width", .int 0), ("seed", .int 0)]

def widthsSession : Session where
  metadata := ⟨widthsBase, {
    keys := ⟨[("width", "w")]⟩
    values := ⟨[("l", .int 64), ("s", .int 8)]⟩
    remainder := .mapping [("seed", .int 7)]
    aliased := ⟨[("width", ())]⟩ }⟩
  specification := some {
    method := .grid
    parameters := [("w", .mapping [("values", .list [.str "s", .str "l"])])] }

/-- Read back from its record, the session still knows what the aliases stand for. -/
theorem reread_widths : create widthsBase widthsSweep = .ok widthsSession ∧
    ∃ m, Metadata.ofTree widthsSession.metadata.toTree = .ok m ∧
      (ofMetadata m).configure .refusing [("w", .str "l")]
        = .ok (.mapping [("width", .int 64), ("seed", .int 7)]) := by
  have created : create widthsBase widthsSweep = .ok widthsSession := by with_unfolding_all rfl
  have overrides : widthsSession.metadata.aliases.overrides [("w", .str "l")]
      = .ok (.mapping [("width", .int 64), ("seed", .int 7)]) := by
    with_unfolding_all rfl
  have merges : Tree.merge .refusing widthsBase (.mapping [("width", .int 64), ("seed", .int 7)])
      = .ok (.mapping [("width", .int 64), ("seed", .int 7)]) := by
    with_unfolding_all rfl
  obtain ⟨-, m, reads, -, alike⟩ := configure_reread widthsBase widthsSweep widthsSession created
  exact ⟨created, m, reads, (alike _ _).trans (bind_eq_ok.mpr ⟨_, overrides, merges⟩)⟩

end Widths

end Session

end ConfigSweep
