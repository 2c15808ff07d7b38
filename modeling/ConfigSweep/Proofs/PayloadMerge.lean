import ConfigSweep.Proofs.DeclarationOrder
import ConfigSweep.Proofs.KeyOrder
import ConfigSweep.Proofs.PayloadEdit
import ConfigSweep.Proofs.Settling

/-!
# The rest of a mapping as a patch

An instruction without a value merges the rest of the mapping around its script into an item. That is
what the rest does as a patch of its own, except that the node is not ended: a mapping from position
tokens is not read as patches at positions, and a list in disguise stays one.
-/

namespace ConfigSweep

namespace Mapping

open Patch

/-- The mapping can stand around a script: it is no directive of another kind and asks for no call. -/
structure IsPayload (m : Mapping Tree) : Prop where
  unique : (keys m).Nodup
  silent : (Tree.mapping m).Silent
  noAxis : Keyword.sweep ∉ keys m
  noScript : Keyword.operations ∉ keys m

/-- The mapping with a script of the instruction between two entries. -/
def withEdit (e : PayloadEdit) (before after : Mapping Tree) : Mapping Tree :=
  before ++ (Keyword.operations, .list [e.edit.toTree]) :: after

/-- The patch that the mapping is read as settles. -/
def Settled (m : Mapping Tree) : Prop :=
  plainEntries m = [] ∨ (∃ e ∈ plainEntries m, Position.isToken e.1 = false) ∨
    (∃ e ∈ m, Keyword.isGroup e.1 = true) ∨ upsertItems? (get? Keyword.upsert m) ≠ some []

/-- Merged into the node, the mapping does what it does as a patch of its own. -/
def EndsSettled (m : Mapping Tree) (t : Tree) : Prop :=
  isPositional m = false ∧ (m.Settled ∨ t.isBlank = false)

section Payload

variable {m n before after : Mapping Tree} {e : PayloadEdit}

theorem IsPayload.noCall (payload : m.IsPayload) : Keyword.eval ∉ keys m :=
  has_eq_false_iff.mp payload.silent.here

theorem IsPayload.perm (payload : m.IsPayload) (moved : m.Perm n) : n.IsPayload where
  unique := (keys_perm moved).nodup_iff.mp payload.unique
  silent := by
    refine .of_children ?_ (Tree.allChildren_mapping.mpr fun e member =>
      Tree.allChildren_mapping.mp payload.silent.child e (moved.mem_iff.mpr member))
    exact has_eq_false_iff.mpr fun member =>
      payload.noCall ((keys_perm moved).mem_iff.mpr member)
  noAxis member := payload.noAxis ((keys_perm moved).mem_iff.mpr member)
  noScript member := payload.noScript ((keys_perm moved).mem_iff.mpr member)

theorem IsPayload.reading (payload : m.IsPayload) :
    reading m = if isPositional m then .sparse else .keyed :=
  reading_of_absent payload.noCall payload.noAxis payload.noScript

theorem refilled_perm (before after : Mapping Tree) :
    (before ++ after).Perm (before ++ refilled after) := by
  refine .append_left before ?_
  rcases List.eq_nil_or_concat after with rfl | ⟨mid, last, rfl⟩
  · exact .refl _
  · rw [List.concat_eq_append, refilled, List.getLast?_concat, List.dropLast_concat]
    exact List.perm_append_singleton last mid

theorem Settled.perm (settled : m.Settled) (unique : (keys m).Nodup) (moved : m.Perm n) :
    n.Settled := by
  have plain : (plainEntries m).Perm (plainEntries n) := moved.filter _
  refine settled.imp (fun empty => ?_) (.imp ?_ (.imp ?_ fun filled => ?_))
  · exact List.nil_perm.mp (empty ▸ plain)
  · exact fun ⟨e, member, token⟩ => ⟨e, plain.mem_iff.mp member, token⟩
  · exact fun ⟨e, member, group⟩ => ⟨e, moved.mem_iff.mp member, group⟩
  · rwa [← get?_perm unique moved]

/-- A mapping whose patch settles is no list in disguise. -/
theorem Settled.isPositional (settled : m.Settled) : isPositional m = false := by
  rcases settled with empty | ⟨e, member, token⟩ | ⟨e, member, group⟩ | filled
  · cases m with
    | nil => rfl
    | cons e rest =>
      have here : e.1 ∈ keys (e :: rest) := mem_keys_of_mem List.mem_cons_self
      by_cases group : Keyword.isGroup e.1 = true
      · exact isPositional_of_key here (Position.isToken_of_isGroup group)
      · by_cases named : e.1 = Keyword.upsert
        · exact isPositional_of_key here (named ▸ by decide)
        · have plain : e ∈ plainEntries (e :: rest) :=
            mem_plainEntries.mpr ⟨List.mem_cons_self, by simpa using group, named⟩
          rw [empty] at plain
          cases plain
  · exact isPositional_of_key (mem_keys_of_mem (mem_plainEntries.mp member).1) token
  · exact isPositional_of_key (mem_keys_of_mem member) (Position.isToken_of_isGroup group)
  · have directive : Keyword.upsert ∈ keys m := by
      by_contra absent
      rw [get?_eq_none_iff.mpr absent] at filled
      exact filled rfl
    exact isPositional_of_key directive (by decide)

/-- Whether a patch settles is told from the mapping that it is read of. -/
theorem settles_ofParts (unique : (keys m).Nodup) {trail : Trail} {parts : List Part}
    (read : PartsFrom trail m parts) : (ofParts parts).Settles ↔ m.Settled := by
  have plain := entries_ofParts read
  have groups := groups_ofParts read
  refine or_congr ?_ (or_congr ?_ (or_congr ?_ ?_))
  · rw [← List.length_eq_zero_iff, ← List.length_eq_zero_iff, plain.length_eq]
  · constructor
    · rintro ⟨n, member, token⟩
      obtain ⟨e, inside, same, -⟩ := exists_left plain n member
      exact ⟨e, inside, same ▸ token⟩
    · rintro ⟨e, member, token⟩
      obtain ⟨n, inside, same, -⟩ := exists_right plain e member
      exact ⟨n, inside, same ▸ token⟩
  · constructor
    · intro filled
      obtain ⟨n, member⟩ := List.exists_mem_of_ne_nil _ filled
      obtain ⟨e, inside, -⟩ := exists_left groups n member
      exact ⟨e, List.mem_filter.mp (List.mem_mergeSort.mp inside)⟩
    · rintro ⟨e, member, group⟩
      obtain ⟨n, inside, -⟩ := exists_right groups e
        (List.mem_mergeSort.mpr (List.mem_filter.mpr ⟨member, group⟩))
      exact List.ne_nil_of_mem inside
  · cases split : upsertItems? (get? Keyword.upsert m) with
    | some items =>
      have count := (upserts_ofParts_items unique read split).length_eq
      rw [List.length_map] at count
      rw [Ne, Ne, Option.some.injEq, ← List.length_eq_zero_iff, ← List.length_eq_zero_iff, count]
    | none =>
      cases found : get? Keyword.upsert m with
      | none =>
        rw [found] at split
        cases split
      | some directive =>
        have done := upserts_ofParts unique read (mem_of_get? found)
        rw [found] at split
        cases directive with
        | list items => cases split
        | mapping named => cases split
        | _ => cases done

theorem withEdit_perm (e : PayloadEdit) (before after : Mapping Tree) :
    (withEdit e before after).Perm
      ((Keyword.operations, .list [e.edit.toTree]) :: (before ++ after)) :=
  List.perm_middle

theorem mem_keys_withEdit {key : String} : key ∈ keys (withEdit e before after) ↔
    key = Keyword.operations ∨ key ∈ keys (before ++ after) := by
  rw [(keys_perm (withEdit_perm e before after)).mem_iff, keys_cons, List.mem_cons]

section Reading

variable (payload : (before ++ after).IsPayload)

include payload

theorem nodup_withEdit : (keys (withEdit e before after)).Nodup := by
  rw [(keys_perm (withEdit_perm e before after)).nodup_iff, keys_cons, List.nodup_cons]
  exact ⟨payload.noScript, payload.unique⟩

theorem noCall_withEdit : Keyword.eval ∉ keys (withEdit e before after) := by
  rw [mem_keys_withEdit, not_or]
  exact ⟨by decide, payload.noCall⟩

theorem noAxis_withEdit : Keyword.sweep ∉ keys (withEdit e before after) := by
  rw [mem_keys_withEdit, not_or]
  exact ⟨by decide, payload.noAxis⟩

theorem silent_withEdit : (Tree.mapping (withEdit e before after)).Silent := by
  refine .of_children (has_eq_false_iff.mpr (noCall_withEdit payload))
    (Tree.allChildren_mapping.mpr fun d member => ?_)
  rcases List.mem_cons.mp ((withEdit_perm e before after).mem_iff.mp member) with rfl | inside
  · cases e <;> exact ⟨rfl, ⟨rfl, rfl, trivial⟩, trivial⟩
  · exact Tree.allChildren_mapping.mp payload.silent.child d inside

theorem reading_withEdit :
    reading (withEdit e before after) = .script (.list [e.edit.toTree]) := by
  have script : get? Keyword.operations (withEdit e before after) = some (.list [e.edit.toTree]) :=
    get?_of_mem (nodup_withEdit payload) (List.mem_append_right _ List.mem_cons_self)
  exact reading_eq_iff.mpr (.script (noCall_withEdit payload) (noAxis_withEdit payload) script)

theorem ofTree_withEdit_eq_ok (word : -Word.signedBound ≤ e.index ∧ e.index < Word.signedBound)
    {p : Patch} : ofTree (.mapping (withEdit e before after)) = .ok p ↔
      ∃ parts, PartsFrom .root (before ++ refilled after) parts ∧
        .edits [e.edit] (ofParts parts) = p := by
  have script : Script.ofTree (.list [e.edit.toTree]) = .ok [e.edit] :=
    mapM_eq_ok.mpr (.cons (e.ofTree_toTree word) .nil)
  rw [ofTree, ofTreeAt_script_eq_ok (reading_withEdit payload), script, withEdit,
    remove_of_split (nodup_withEdit payload (e := e))]
  simp only [Except.ok.injEq, exists_eq_left']

end Reading

end Payload

end Mapping

/-- Merges a patch into the item and puts what becomes of it in its place, in a list that must be
free of reserved keys. -/
def PayloadEdit.mergeItem (evaluator : Evaluator) (patch : Tree) (items : List Tree)
    (e : PayloadEdit) : Outcome Tree := do
  let value ← Tree.merge evaluator (e.item items) patch
  let merged := Tree.list (e.put items value)
  merged.checkPlain
  return merged

section Merging

open Patch

variable {evaluator : Evaluator} {e : PayloadEdit} {items : List Tree} {before after m : Mapping Tree}
  {r u v : Tree}

theorem mergeItem_eq_ok {patch : Tree} : e.mergeItem evaluator patch items = .ok r ↔
    ∃ u, Tree.merge evaluator (e.item items) patch = .ok u ∧ r = .list (e.put items u) ∧
      r.checkPlain = .ok () := by
  constructor
  · intro done
    obtain ⟨u, merges, done⟩ := bind_eq_ok.mp done
    obtain ⟨⟨⟩, plain, done⟩ := bind_eq_ok.mp done
    obtain rfl := Except.ok.inj done
    exact ⟨u, merges, rfl, plain⟩
  · rintro ⟨u, merges, rfl, plain⟩
    exact bind_eq_ok.mpr ⟨u, merges, bind_eq_ok.mpr ⟨(), plain, rfl⟩⟩

theorem checkPlain_of_put (fits : e.Fits items.length)
    (plain : (Tree.list (e.put items u)).checkPlain = .ok ()) : u.checkPlain = .ok () := by
  have each := (Tree.checkPlainAt_eq_ok _ .root).mp plain
  exact (Tree.checkPlainAt_eq_ok u .root).mpr
    (Tree.everywhereItems_iff.mp each.2 u (List.mem_of_getElem? (PayloadEdit.getElem?_put fits u)))

section WithEdit

variable (payload : (before ++ after).IsPayload)
  (word : -Word.signedBound ≤ e.index ∧ e.index < Word.signedBound) (fits : e.Fits items.length)

include payload

theorem locals_of_withEdit {script : Script} {own : KeyedPatch Patch}
    (reads : ofTree (.mapping (Mapping.withEdit e before after)) = .ok (.edits script own)) :
    ∀ p ∈ own.patches, p.Local evaluator := by
  have callFree := callFree_of_ofTreeAt (Mapping.silent_withEdit payload).callFree reads
  cases callFree with
  | intro here within =>
    intro p member
    have inside : p.CallFree := within p member
    exact inside.isLocal evaluator

include word fits

/-- The instruction merges the parts of the rest into the item. -/
theorem merge_withEdit_eq_ok :
    Tree.merge evaluator (.list items) (.mapping (Mapping.withEdit e before after)) = .ok r ↔
      ∃ parts u, PartsFrom .root (before ++ Mapping.refilled after) parts ∧
        Merge.keyed evaluator (ofParts parts) .root (e.item items) = .ok u ∧
          r = .list (e.put items u) ∧ r.checkPlain = .ok () := by
  rw [Tree.merge_eq_ok]
  constructor
  · rintro ⟨p, reads, merges, plain⟩
    obtain ⟨parts, read, rfl⟩ := (Mapping.ofTree_withEdit_eq_ok payload word).mp reads
    obtain ⟨u, makes, rfl⟩ := (Merge.node_payload (locals_of_withEdit payload reads) fits).mp merges
    exact ⟨parts, u, read, makes, rfl, plain⟩
  · rintro ⟨parts, u, read, makes, rfl, plain⟩
    have reads := (Mapping.ofTree_withEdit_eq_ok payload word).mpr ⟨parts, read, rfl⟩
    exact ⟨_, reads, (Merge.node_payload (locals_of_withEdit payload reads) fits).mpr ⟨u, makes, rfl⟩,
      plain⟩

/-- If it makes no difference that the item is not revealed in the end, then the rest is merged into
it as a patch of its own. -/
theorem merge_withEdit_iff_mergeItem
    (kind : Mapping.isPositional (before ++ Mapping.refilled after) = false)
    (ends : Mapping.Settled (before ++ Mapping.refilled after) ∨ (e.item items).isBlank = false) :
    Tree.merge evaluator (.list items) (.mapping (Mapping.withEdit e before after)) = .ok r ↔
      e.mergeItem evaluator (.mapping (before ++ Mapping.refilled after)) items = .ok r := by
  have rest : (before ++ Mapping.refilled after).IsPayload :=
    payload.perm (Mapping.refilled_perm before after)
  have keyed : reading (before ++ Mapping.refilled after) = .keyed := by
    rw [rest.reading, kind]
    rfl
  have same : ∀ {parts u}, PartsFrom .root (before ++ Mapping.refilled after) parts →
      (Merge.node evaluator (.keyed (ofParts parts)) .root (e.item items) = .ok u ↔
        Merge.keyed evaluator (ofParts parts) .root (e.item items) = .ok u) := fun read =>
    Merge.node_keyed_eq_ok rfl (ends.imp_left (Mapping.settles_ofParts rest.unique read).mpr)
  rw [merge_withEdit_eq_ok payload word fits, mergeItem_eq_ok]
  constructor
  · rintro ⟨parts, u, read, makes, rfl, plain⟩
    exact ⟨u, Tree.merge_eq_ok.mpr ⟨_, (ofTreeAt_keyed_eq_ok keyed).mpr ⟨parts, read, rfl⟩,
      (same read).mpr makes, checkPlain_of_put fits plain⟩, rfl, plain⟩
  · rintro ⟨u, merges, rfl, plain⟩
    obtain ⟨p, reads, merges, -⟩ := Tree.merge_eq_ok.mp merges
    obtain ⟨parts, read, rfl⟩ := (ofTreeAt_keyed_eq_ok keyed).mp reads
    exact ⟨parts, u, read, (same read).mp merges, rfl, plain⟩

end WithEdit

section Rest

/-- The evaluator does not matter to a patch that asks for no call. -/
theorem mergeItem_of_silent {patch : Tree} (silent : patch.Silent) (evaluator other : Evaluator) :
    e.mergeItem evaluator patch items = e.mergeItem other patch items := by
  unfold PayloadEdit.mergeItem
  rw [silent.merge_eq evaluator other]

/-- Patches that are read alike are merged into the item alike. -/
theorem mergeItem_follows {patch other : Tree} {asUpserts : Prop}
    (like : patch.ReadsLike evaluator asUpserts other) :
    (e.mergeItem evaluator patch items).Follows Tree.SameView (e.mergeItem evaluator other items) := by
  intro r done
  obtain ⟨u, merges, rfl, plain⟩ := mergeItem_eq_ok.mp done
  obtain ⟨v, merges', same⟩ := like.merge (e.item items) u merges
  have views : (Tree.list (e.put items u)).SameView (.list (e.put items v)) := by
    show (Tree.list _).view = (Tree.list _).view
    rw [Tree.view, Tree.view, Tree.viewItems_eq, Tree.viewItems_eq, PayloadEdit.map_put Tree.view same]
  have free := ((Tree.checkPlainAt_eq_ok _ .root).mp plain).of_view Tree.Unreserved.of_view views
  exact ⟨_, mergeItem_eq_ok.mpr ⟨v, merges', rfl, (Tree.checkPlainAt_eq_ok _ .root).mpr free⟩, views⟩

/-- The keys of a payload for different positions may be listed in any order. -/
theorem readsLike_of_perm {n : Mapping Tree} (payload : m.IsPayload)
    (apart : (Tree.mapping m).PositionsApart) (moved : m.Perm n) :
    (Tree.mapping m).ReadsLike .refusing False (.mapping n) := by
  have places := Tree.nodup_places (t := .mapping m) payload.unique apart
  have swapped := @Tree.ReadsLike.perm .refusing m n [] False Evaluator.unordered_refusing moved
  rw [List.append_nil, List.append_nil] at swapped
  exact swapped payload.unique fun k first l second other =>
    Tree.interchange payload.silent places False.elim first second other

theorem readsLike_rest (payload : (before ++ after).IsPayload)
    (apart : after = [] ∨ (Tree.mapping (before ++ after)).PositionsApart) :
    (Tree.mapping (before ++ after)).ReadsLike .refusing False
      (.mapping (before ++ Mapping.refilled after)) ∧
    (Tree.mapping (before ++ Mapping.refilled after)).ReadsLike .refusing False
      (.mapping (before ++ after)) := by
  rcases apart with rfl | apart
  · exact ⟨.refl Evaluator.unordered_refusing _, .refl Evaluator.unordered_refusing _⟩
  · have moved := Mapping.refilled_perm before after
    have keys := Mapping.keys_perm moved
    refine ⟨readsLike_of_perm payload apart moved,
      readsLike_of_perm (payload.perm moved) (fun k first l second => ?_) moved.symm⟩
    exact apart k (keys.mem_iff.mpr first) l (keys.mem_iff.mpr second)

end Rest

section Apart

theorem Tree.Reordered.isDisguised_eq (reordered : u.Reordered v) : u.isDisguised = v.isDisguised := by
  cases reordered with
  | leaf => rfl
  | list => rfl
  | @mapping entries middle others moved each =>
    have keys : Mapping.keys middle = Mapping.keys others := map_eq_of_forall₂ (each.imp fun _ _ here => by
      cases here
      rfl)
    exact Mapping.isPositional_of_perm (keys ▸ Mapping.keys_perm moved)

theorem Tree.Reordered.getElem? {xs ys : List Tree} (reordered : (Tree.list xs).Reordered (.list ys))
    {position : Nat} (here : xs[position]? = some u) (there : ys[position]? = some v) :
    u.Reordered v := by
  cases reordered with
  | leaf leaf => cases leaf
  | list each =>
    obtain ⟨within, rfl⟩ := List.getElem?_eq_some_iff.mp here
    obtain ⟨within', rfl⟩ := List.getElem?_eq_some_iff.mp there
    exact each.get within within'

/-- What a loose payload makes of an item is a mapping, where a merge of the patch would end with a
list or a mapping that is no list in disguise. -/
theorem not_reordered_of_loose (payload : (before ++ after).IsPayload)
    (loose : ¬ Mapping.Settled (before ++ after))
    (kind : Mapping.isPositional (before ++ after) = true ∨ (e.item items).isBlank = true)
    {parts : List Part} (read : PartsFrom .root (before ++ Mapping.refilled after) parts)
    (makes : Merge.keyed evaluator (ofParts parts) .root (e.item items) = .ok u)
    (merges : Tree.merge evaluator (e.item items) (.mapping (before ++ after)) = .ok v) :
    ¬ u.Reordered v := by
  intro reordered
  have moved := Mapping.refilled_perm before after
  have rest := payload.perm moved
  have loose' : ¬ (ofParts parts).Settles := fun settles =>
    loose (((Mapping.settles_ofParts rest.unique read).mp settles).perm rest.unique moved.symm)
  obtain ⟨p, reads, ends, -⟩ := Tree.merge_eq_ok.mp merges
  rcases kind with positional | blank
  · obtain ⟨m, found⟩ := Merge.mapping_of_loose loose' rfl makes
    obtain rfl : u = .mapping m := Option.some.inj found
    have sparse : reading (before ++ after) = .sparse := by
      rw [payload.reading, if_pos positional]
    obtain ⟨named, -, rfl⟩ := (ofTreeAt_sparse_eq_ok sparse).mp reads
    obtain ⟨list, found'⟩ := Merge.list_of_sparse rfl ends
    obtain rfl : v = .list list := Option.some.inj found'
    cases reordered
  · obtain ⟨t, replaced, disguised⟩ := (Merge.keyed_disguises loose').leaves .root rfl blank makes
    obtain rfl : t = u := Option.some.inj replaced
    obtain ⟨t, found, plain⟩ := Merge.settled_of_node ends
    obtain rfl : v = t := Option.some.inj found
    rw [reordered.isDisguised_eq, plain] at disguised
    cases disguised

end Apart

end Merging

namespace Tree

/-- A patch with an instruction without a value merges the rest of its mapping into an item, and fails
if and only if that merge does, when the rest is no list in disguise and settles or finds something to
keep. In the rest the last entry takes the place of the script, which cannot be told from the order as
authored if no two keys stand for one position. Any other rest makes something else of the item than
its merge does. -/
theorem merge_withEdit (evaluator : Evaluator) (e : PayloadEdit) (items : List Tree)
    (before after : Mapping Tree) (payload : (before ++ after).IsPayload)
    (word : -Word.signedBound ≤ e.index ∧ e.index < Word.signedBound) (fits : e.Fits items.length) :
    ((before ++ after).EndsSettled (e.item items) →
      (∀ r, merge evaluator (.list items) (.mapping (Mapping.withEdit e before after)) = .ok r ↔
        e.mergeItem evaluator (.mapping (before ++ Mapping.refilled after)) items = .ok r) ∧
      (after = [] ∨ (Tree.mapping (before ++ after)).PositionsApart →
        Option.Rel Reordered
          (merge evaluator (.list items) (.mapping (Mapping.withEdit e before after))).toOption
          (e.mergeItem evaluator (.mapping (before ++ after)) items).toOption)) ∧
    (¬ (before ++ after).EndsSettled (e.item items) → ∀ r r',
      merge evaluator (.list items) (.mapping (Mapping.withEdit e before after)) = .ok r →
        e.mergeItem evaluator (.mapping (before ++ after)) items = .ok r' → ¬ r.Reordered r') := by
  have moved := Mapping.refilled_perm before after
  have rest := payload.perm moved
  constructor
  · rintro ⟨kind, ends⟩
    have kind' : Mapping.isPositional (before ++ Mapping.refilled after) = false :=
      (Mapping.isPositional_of_perm (Mapping.keys_perm moved)).symm.trans kind
    have merges : ∀ r, merge evaluator (.list items)
        (.mapping (Mapping.withEdit e before after)) = .ok r ↔
        e.mergeItem evaluator (.mapping (before ++ Mapping.refilled after)) items = .ok r := fun r =>
      merge_withEdit_iff_mergeItem payload word fits kind'
        (ends.imp_left fun settled => settled.perm payload.unique moved)
    refine ⟨merges, fun apart => ?_⟩
    obtain ⟨forth, back⟩ := readsLike_rest payload apart
    rw [mergeItem_of_silent payload.silent evaluator .refusing]
    simp only [mergeItem_of_silent rest.silent evaluator .refusing] at merges
    exact rel_reordered (fun r done => mergeItem_follows back r ((merges r).mp done))
      fun r done => (mergeItem_follows forth r done).imp fun _ both => ⟨(merges _).mpr both.1, both.2⟩
  · intro loose r r' done done' reordered
    obtain ⟨parts, u, read, makes, rfl, -⟩ := (merge_withEdit_eq_ok payload word fits).mp done
    obtain ⟨v, merges, rfl, -⟩ := mergeItem_eq_ok.mp done'
    have same : u.Reordered v :=
      reordered.getElem? (PayloadEdit.getElem?_put fits u) (PayloadEdit.getElem?_put fits v)
    have unsettled : ¬ (before ++ after).Settled := fun settled =>
      loose ⟨settled.isPositional, .inl settled⟩
    refine not_reordered_of_loose payload unsettled ?_ read makes merges same
    by_contra neither
    rw [not_or, Bool.not_eq_true, Bool.not_eq_true] at neither
    exact loose ⟨neither.1, .inr neither.2⟩

section Stages

def stages : List Tree :=
  [.int 7, .mapping [("width", .int 1), ("name", .str "last")]]

def stageEntries : Mapping Tree :=
  [("width", .int 2)]

def laterEntries : Mapping Tree :=
  [("depth", .int 3), ("rate", .int 4)]

/-- The last item is overwritten; the script stands behind the width. -/
def overwriting : Tree :=
  .mapping (Mapping.withEdit (.overwrite (-1)) stageEntries laterEntries)

def overwritten : Tree :=
  .list [.int 7, .mapping [("width", .int 2), ("name", .str "last"), ("rate", .int 4),
    ("depth", .int 3)]]

/-- Meant as a list of one item. -/
def oneToken : Mapping Tree :=
  [(Position.token 0, .int 5)]

def inserting : Tree :=
  .mapping (Mapping.withEdit (.insert 0) [] oneToken)

def inserted : Tree :=
  .list [.mapping oneToken]

/-- The payload that overwrites does what it does as a patch; the one from position tokens does not. -/
theorem merge_withEdit_stages :
    (merge .refusing (.list stages) overwriting = .ok overwritten ∧
      ∃ r, PayloadEdit.mergeItem .refusing (.mapping (stageEntries ++ laterEntries)) stages
        (.overwrite (-1)) = .ok r ∧ overwritten.Reordered r) ∧
    merge .refusing (.list []) inserting = .ok inserted ∧
    PayloadEdit.mergeItem .refusing (.mapping oneToken) [] (.insert 0) = .ok (.list [.list [.int 5]]) ∧
    ¬ inserted.Reordered (.list [.list [.int 5]]) := by
  have merges : merge .refusing (.list stages) overwriting = .ok overwritten := by
    with_unfolding_all rfl
  have merges' : merge .refusing (.list []) inserting = .ok inserted := by with_unfolding_all rfl
  have alone : PayloadEdit.mergeItem .refusing (.mapping oneToken) [] (.insert 0)
      = .ok (.list [.list [.int 5]]) := by with_unfolding_all rfl
  refine ⟨⟨merges, ?_⟩, merges', alone, ?_⟩
  · have payload : (stageEntries ++ laterEntries).IsPayload :=
      ⟨by decide, by decide, by decide, by decide⟩
    have ends : (stageEntries ++ laterEntries).EndsSettled
        (PayloadEdit.item stages (.overwrite (-1))) := ⟨by decide, .inr rfl⟩
    have both := ((merge_withEdit .refusing (.overwrite (-1)) stages stageEntries laterEntries payload
      (by decide) (by decide)).1 ends).2 (.inr (by decide))
    rw [show merge .refusing (.list stages) (.mapping _) = _ from merges] at both
    cases item : PayloadEdit.mergeItem .refusing (.mapping (stageEntries ++ laterEntries)) stages
        (.overwrite (-1)) with
    | error failure =>
      rw [item] at both
      cases both
    | ok r =>
      rw [item] at both
      cases both with
      | some same => exact ⟨r, rfl, same⟩
  · have payload : oneToken.IsPayload := ⟨by decide, by decide, by decide, by decide⟩
    have positional : Mapping.isPositional oneToken = true := by decide
    have loose : ¬ oneToken.EndsSettled (PayloadEdit.item [] (.insert 0)) := fun ends =>
      absurd positional (Bool.eq_false_iff.mp ends.1)
    exact (merge_withEdit .refusing (.insert 0) [] [] oneToken payload (by decide) (by decide)).2
      loose _ _ merges' alone

end Stages

end Tree

end ConfigSweep
