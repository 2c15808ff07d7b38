import ConfigSweep.Proofs.ByteOrder
import ConfigSweep.Proofs.PatchParts

/-!
# The order of declarations in a patch

A keyed patch keeps the order in which its plain keys were authored, sorts its groups by the bytes
of their keys and takes its upserts as authored or by their positions. So does the payload of a
script, except that the last entry of the mapping takes the place of the script.
-/

namespace ConfigSweep

namespace Mapping

variable {α : Type}

/-- The order in which the upserts of a mapping apply: as authored, unless all keys stand for
positions; then by ascending positions, and as authored where positions are equal. -/
def Applies (named ordered : Mapping α) : Prop :=
  if isPositional named then
    ordered.Perm named ∧ ordered.Pairwise (fun a b => Position.rank a.1 ≤ Position.rank b.1) ∧
      ∀ n, ordered.filter (fun e => Position.rank e.1 == n) =
        named.filter fun e => Position.rank e.1 == n
  else ordered = named

theorem applies_byPosition (named : Mapping α) : named.Applies (byPosition named) := by
  have ascending := ascending_mergeSort (fun e : String × α => Position.rank e.1) named
  have stable := filter_mergeSort (fun e : String × α => Position.rank e.1) named
  unfold Applies byPosition
  cases isPositional named with
  | true => exact ⟨List.mergeSort_perm _ _, ascending, stable⟩
  | false => rfl

/-- What stands behind a removed entry: the last entry fills its place. -/
def refilled (after : Mapping α) : Mapping α :=
  match after.getLast? with
  | none => []
  | some last => last :: after.dropLast

theorem remove_of_split {key : String} {value : α} {before after : Mapping α}
    (unique : (keys (before ++ (key, value) :: after)).Nodup) :
    remove key (before ++ (key, value) :: after) = before ++ refilled after := by
  rw [keys_append, keys_cons, List.nodup_append] at unique
  have absent : key ∉ keys before := fun member =>
    unique.2.2 key member key List.mem_cons_self rfl
  rw [remove_append absent, remove, if_pos rfl]
  unfold refilled
  cases after.getLast? <;> rfl

theorem plainEntries_append (m n : Mapping Tree) :
    plainEntries (m ++ n) = plainEntries m ++ plainEntries n :=
  List.filter_append ..

/-- Only a plain key that was last can leave its place, and it does so if others are overtaken. -/
theorem plain_refilled_iff {after : Mapping Tree} (unique : (keys after).Nodup) :
    keys (plainEntries (refilled after)) = keys (plainEntries after) ↔
      ∀ last, after.getLast? = some last → last ∈ plainEntries after →
        plainEntries after.dropLast = [] := by
  rcases List.eq_nil_or_concat after with rfl | ⟨mid, last, rfl⟩
  · simp [refilled]
  · have moved : refilled (mid ++ [last]) = [last] ++ mid := by
      simp [refilled]
    rw [List.concat_eq_append, moved, List.getLast?_concat, List.dropLast_concat,
      plainEntries_append, plainEntries_append, keys_append, keys_append]
    by_cases plain : Keyword.isGroup last.1 = false ∧ last.1 ≠ Keyword.upsert
    · have single : plainEntries [last] = [last] := by simp [plainEntries, plain]
      rw [single]
      constructor
      · rintro same _ - -
        cases overtaken : plainEntries mid with
        | nil => rfl
        | cons first rest =>
          have inside : first ∈ mid :=
            (mem_plainEntries.mp (overtaken ▸ List.mem_cons_self : first ∈ plainEntries mid)).1
          rw [overtaken] at same
          have keysEqual : last.1 = first.1 := (List.cons.inj same).1
          rw [List.concat_eq_append, keys_append, List.nodup_append] at unique
          exact absurd keysEqual.symm
            (unique.2.2 first.1 (mem_keys_of_mem inside) last.1 List.mem_cons_self)
      · intro alone
        rw [alone last rfl (List.mem_append_right _ List.mem_cons_self)]
        rfl
    · have none' : plainEntries [last] = [] := by
        simpa [plainEntries] using plain
      rw [none', keys_nil, List.nil_append, List.append_nil, List.append_nil]
      refine ⟨?_, fun _ => rfl⟩
      rintro - other same member
      obtain rfl := Option.some.inj same
      exact absurd (mem_plainEntries.mp member).2 plain

/-- Groups by the bytes of their keys. -/
theorem groupEntries_sorted {entries : Mapping Tree} (unique : (keys entries).Nodup) :
    (groupEntries entries).Pairwise fun a b => Text.bytes a.1 < Text.bytes b.1 := by
  have ascending : (groupEntries entries).Pairwise fun a b => a.1 ≤ b.1 :=
    ascending_mergeSort Prod.fst _
  have perm : (groupEntries entries).Perm (entries.filter fun e => Keyword.isGroup e.1) :=
    List.mergeSort_perm _ _
  have once : (keys (groupEntries entries)).Nodup :=
    (keys_perm perm).nodup_iff.mpr (unique.sublist (List.filter_sublist.map Prod.fst))
  have apart : (groupEntries entries).Pairwise fun a b => a.1 ≠ b.1 := List.pairwise_map.mp once
  refine ascending.imp₂ (fun a b below different => ?_) apart
  exact Text.bytes_lt_iff.mpr (lt_of_le_of_ne below different)

end Mapping

open Patch

/-- The entry and the patch have one key, and the patch is what the value is read as. -/
def NamedAs (e : String × Tree) (n : String × Patch) : Prop :=
  e.1 = n.1 ∧ ofTree e.2 = .ok n.2

theorem keys_of_namedAs {entries : Mapping Tree} {named : List (String × Patch)}
    (read : List.Forall₂ NamedAs entries named) :
    Mapping.keys named = Mapping.keys entries :=
  (map_eq_of_forall₂ (read.imp fun _ _ both => both.1)).symm

/-- The upserts are those of a directive, in the order in which they apply. -/
inductive UpsertsFrom : Option Tree → List (Option String × Patch) → Prop where
  | absent : UpsertsFrom none []
  | listed {items : List Tree} {ps : List Patch} (read : TreesFrom items ps) :
    UpsertsFrom (some (.list items)) (ps.map fun p => (none, p))
  | named {named ordered : Mapping Tree} {ns : List (String × Patch)}
    (order : named.Applies ordered) (read : List.Forall₂ NamedAs ordered ns) :
    UpsertsFrom (some (.mapping named)) (ns.map fun n => (some n.1, n.2))

/-- The entries of the patch are read of `plain` in its order. The groups are those of `declared`,
ascending by the bytes of their keys, and the upserts those of its directive. -/
structure KeyedPatch.DeclaredBy (patch : KeyedPatch Patch) (plain declared : Mapping Tree) : Prop where
  entries : List.Forall₂ NamedAs plain patch.entries
  once : (Mapping.keys patch.entries).Nodup
  groups : ∃ sorted : Mapping Tree, sorted.Perm (declared.filter fun e => Keyword.isGroup e.1) ∧
    (sorted.Pairwise fun a b => Text.bytes a.1 < Text.bytes b.1) ∧
    List.Forall₂ NamedAs sorted patch.groups
  upserts : UpsertsFrom (declared.get? Keyword.upsert) patch.upserts

section Parts

variable {authored : Mapping Tree} {trail : Trail} {parts : List Part}

theorem Patch.NamedFrom.namedAs {below : String → Trail} {named : List (String × Patch)}
    (read : NamedFrom below authored named) : List.Forall₂ NamedAs authored named :=
  read.imp fun _ _ both => ⟨both.1, ofTreeAt_eq_ok.mp both.2⟩

theorem upsertsFrom_of_upsertsOf {directive : Tree} {us : List (Option String × Patch)}
    (done : upsertsOf directive trail = .ok us) : UpsertsFrom (some directive) us := by
  cases upsertsOf_iff.mp done with
  | items read => exact .listed (ofItems_eq_ok.mp read)
  | named read => exact .named (Mapping.applies_byPosition _) read.byPosition.namedAs

/-- The parts of a mapping make a patch that it declares. -/
theorem declaredBy_ofParts (unique : (Mapping.keys authored).Nodup)
    (read : PartsFrom trail authored parts) :
    (ofParts parts).DeclaredBy authored.plainEntries authored where
  entries := (entries_ofParts read).namedAs
  once := unique.sublist (keys_plain_sublist read)
  groups := ⟨authored.groupEntries, List.mergeSort_perm _ _, Mapping.groupEntries_sorted unique,
    (groups_ofParts read).namedAs⟩
  upserts := by
    cases found : Mapping.get? Keyword.upsert authored with
    | some directive =>
      exact upsertsFrom_of_upsertsOf (upserts_ofParts unique read (Mapping.mem_of_get? found))
    | none =>
      have none' : TreesFrom [] ((ofParts parts).upserts.map Prod.snd) :=
        upserts_ofParts_items unique read (congrArg Mapping.upsertItems? found)
      rw [List.map_eq_nil_iff.mp (List.forall₂_nil_left_iff.mp none')]
      exact .absent

/-- Groups and upserts do not depend on where the script stands. -/
theorem KeyedPatch.DeclaredBy.of_remove {patch : KeyedPatch Patch} {plain entries : Mapping Tree}
    (unique : (Mapping.keys entries).Nodup)
    (declared : patch.DeclaredBy plain (Mapping.remove Keyword.operations entries)) :
    patch.DeclaredBy plain entries where
  entries := declared.entries
  once := declared.once
  groups := by
    obtain ⟨sorted, perm, ascending, read⟩ := declared.groups
    refine ⟨sorted, perm.trans ?_, ascending, read⟩
    refine ((Mapping.remove_perm unique).filter _).trans (List.Perm.of_eq ?_)
    rw [List.filter_filter]
    refine List.filter_congr fun e _ => ?_
    by_cases named : e.1 = Keyword.operations
    · rw [named]
      decide
    · simp [named]
  upserts := by
    have same : Mapping.get? Keyword.upsert (Mapping.remove Keyword.operations entries)
        = Mapping.get? Keyword.upsert entries :=
      (Mapping.get?_remove unique Keyword.upsert).trans (if_neg (by decide))
    exact same ▸ declared.upserts

end Parts

section Classified

variable {entries : Mapping Tree} {trail : Trail}

/-- A keyed patch is declared by its mapping. -/
theorem declaredBy_of_keyed (unique : (Mapping.keys entries).Nodup) {patch : KeyedPatch Patch}
    (done : ofTreeAt (.mapping entries) trail = .ok (.keyed patch)) :
    patch.DeclaredBy entries.plainEntries entries := by
  cases ofTreeAt_iff.mp done with
  | keyed kind read => exact declaredBy_ofParts unique read

/-- The payload of a script is declared by the rest of its mapping. -/
theorem declaredBy_of_edits (unique : (Mapping.keys entries).Nodup) {script : Script}
    {payload : KeyedPatch Patch}
    (done : ofTreeAt (.mapping entries) trail = .ok (.edits script payload)) :
    (∃ operations, (Keyword.operations, operations) ∈ entries) ∧
      payload.DeclaredBy (Mapping.plainEntries (Mapping.remove Keyword.operations entries)) entries := by
  cases ofTreeAt_iff.mp done with
  | edits kind scripted read =>
    exact ⟨⟨_, mem_of_reading_script kind⟩,
      (declaredBy_ofParts (Mapping.nodup_keys_remove unique) read).of_remove unique⟩

/-- Classification keeps the order of declarations. The plain entries of a keyed patch are the plain
keys in authored order; groups ascend by the bytes of their keys, and upserts are in authored order or
by their positions. A script differs in its plain entries: the last entry of its mapping takes the
place of the directive, so that they are in authored order if and only if that entry is no plain key
or overtakes none. -/
theorem ofTree_declared (unique : (Mapping.keys entries).Nodup) {p : Patch}
    (done : ofTree (.mapping entries) = .ok p) :
    (∀ patch, p = .keyed patch → patch.DeclaredBy entries.plainEntries entries) ∧
    ∀ script payload, p = .edits script payload →
      ∃ before operations after, entries = before ++ (Keyword.operations, operations) :: after ∧
        payload.DeclaredBy (Mapping.plainEntries (before ++ Mapping.refilled after)) entries ∧
        (Mapping.keys payload.entries = Mapping.keys (Mapping.plainEntries (before ++ after)) ↔
          ∀ last, after.getLast? = some last → last ∈ Mapping.plainEntries after →
            Mapping.plainEntries after.dropLast = []) := by
  constructor
  · rintro patch rfl
    exact declaredBy_of_keyed unique done
  · rintro script payload rfl
    obtain ⟨⟨operations, member⟩, declared⟩ := declaredBy_of_edits unique done
    obtain ⟨before, after, rfl⟩ := List.append_of_mem member
    rw [Mapping.remove_of_split unique] at declared
    refine ⟨before, operations, after, rfl, declared, ?_⟩
    have authored := keys_of_namedAs declared.entries
    have later : (Mapping.keys after).Nodup := by
      rw [Mapping.keys_append, Mapping.keys_cons] at unique
      exact (List.nodup_cons.mp (List.nodup_append.mp unique).2.1).2
    rw [authored, Mapping.plainEntries_append, Mapping.plainEntries_append, Mapping.keys_append,
      Mapping.keys_append, List.append_cancel_left_eq, Mapping.plain_refilled_iff later]

end Classified

section Moved

/-- A script in the middle of plain keys, groups and upserts by position. -/
def stackedEdits : Mapping Tree :=
  [("width", .int 1), ("sweep_group_z", .mapping [("rate", .int 2)]),
    (Keyword.operations, .list [.mapping [(Keyword.remove, .int 0)]]), ("depth", .int 3),
    ("sweep_group_é", .int 4),
    (Keyword.upsert, .mapping [("__IDX__1", .int 5), ("__IDX__0", .int 6)]), ("rate", .int 7)]

/-- What the rest of the mapping is read as, with its last entry in the place of the script. -/
def stackedPayload : KeyedPatch Patch :=
  ofParts [.plain "width" (.scalar (.int 1)),
    .group "sweep_group_z" (.keyed { entries := [("rate", .scalar (.int 2))] }),
    .plain "rate" (.scalar (.int 7)), .plain "depth" (.scalar (.int 3)),
    .group "sweep_group_é" (.scalar (.int 4)),
    .upserts (orderUpserts [("__IDX__1", .scalar (.int 5)), ("__IDX__0", .scalar (.int 6))])]

theorem ofTree_declared_moved :
    ofTree (.mapping stackedEdits) = .ok (.edits [.remove 0] stackedPayload) ∧
    Mapping.keys stackedPayload.entries = ["width", "rate", "depth"] ∧
    ∃ before operations after, stackedEdits = before ++ (Keyword.operations, operations) :: after ∧
      stackedPayload.DeclaredBy (Mapping.plainEntries (before ++ Mapping.refilled after))
        stackedEdits := by
  have reads : ofTree (.mapping stackedEdits) = .ok (.edits [.remove 0] stackedPayload) := by
    with_unfolding_all rfl
  refine ⟨reads, rfl, ?_⟩
  obtain ⟨before, operations, after, whole, declared, -⟩ :=
    (ofTree_declared (by decide) reads).2 _ _ rfl
  exact ⟨before, operations, after, whole, declared⟩

end Moved

end ConfigSweep
