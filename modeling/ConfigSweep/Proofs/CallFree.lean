import ConfigSweep.Proofs.Locality

/-!
# Trees that ask for no call

A tree without the evaluation keyword is read as a patch that never looks at the root: calls that
are embedded in texts are made on the values that they replace.
-/

namespace ConfigSweep

namespace Tree

/-- No mapping in the tree asks for a call. -/
abbrev CallFree (t : Tree) : Prop :=
  t.Everywhere fun node => node.field? Keyword.eval = none

theorem CallFree.of_view {t u : Tree} (callFree : t.CallFree) (same : t.SameView u) : u.CallFree := by
  refine Everywhere.of_view (fun a b view none' => ?_) same callFree
  have values := field?_of_view view Keyword.eval
  rw [none'] at values
  exact Option.map_eq_none_iff.mp values.symm

theorem CallFree.item {items : List Tree} (callFree : (Tree.list items).CallFree) :
    ∀ t ∈ items, t.CallFree :=
  everywhereItems_iff.mp callFree.2

theorem CallFree.value {entries : Mapping Tree} (callFree : (Tree.mapping entries).CallFree) :
    ∀ e ∈ entries, e.2.CallFree :=
  everywhereEntries_iff.mp callFree.2

theorem CallFree.get?_eval {entries : Mapping Tree} (callFree : (Tree.mapping entries).CallFree) :
    Mapping.get? Keyword.eval entries = none :=
  callFree.1

/-- Revealing lists keeps what holds of every list and is told of a mapping by its keys. -/
theorem Everywhere.revealAll {p : Tree → Prop} (lists : ∀ items, p (.list items))
    (keyed : ∀ m n : Mapping Tree, Mapping.keys m = Mapping.keys n → p (.mapping m) → p (.mapping n))
    {t : Tree} : ∀ {r : Tree}, t.Everywhere p → t.revealAll = .ok r → r.Everywhere p := by
  induction t using children_induction with
  | node t ih =>
    intro r holds done
    cases t with
    | list items =>
      obtain ⟨shown, each, rfl⟩ := revealAll_list_eq_ok.mp done
      refine ⟨lists shown, everywhereItems_iff.mpr fun s member => ?_⟩
      obtain ⟨a, inside, reveals⟩ := exists_left each s member
      obtain ⟨_, child⟩ := exists_child_of_item inside
      exact ih _ child (holds.child _ child) reveals
    | mapping entries =>
      obtain ⟨shown, each, revealed⟩ := revealAll_mapping_eq_ok.mp done
      have values : ∀ e ∈ shown, e.2.Everywhere p := by
        intro e member
        obtain ⟨d, inside, -, reveals⟩ := exists_left each e member
        exact ih _ (child_of_entry inside) (holds.child _ (child_of_entry inside)) reveals
      cases reveal_iff.mp revealed with
      | itself plain =>
        have keys : Mapping.keys entries = Mapping.keys shown :=
          map_eq_of_forall₂ (each.imp fun _ _ both => both.1)
        exact ⟨keyed entries shown keys holds.here, everywhereEntries_iff.mpr values⟩
      | list positional within lists' =>
        obtain ⟨-, rfl⟩ := SparseList.toList_eq_ok.mp lists'
        refine ⟨lists _, everywhereItems_iff.mpr fun s member => ?_⟩
        obtain ⟨slot, inside, rfl⟩ := List.mem_map.mp member
        obtain ⟨e, among, same⟩ := SparseList.mem_ofEntries inside
        exact same ▸ values e among
    | _ =>
      obtain rfl := Except.ok.inj done
      exact holds

/-- Revealing lists brings up no call. -/
theorem CallFree.revealAll {t r : Tree} (callFree : t.CallFree) (done : t.revealAll = .ok r) :
    r.CallFree := by
  refine Everywhere.revealAll (fun _ => rfl) (fun m n same none' => ?_) callFree done
  have absent : Mapping.get? Keyword.eval m = none := none'
  show Mapping.get? Keyword.eval n = none
  rw [Mapping.get?_eq_none_iff] at absent ⊢
  rwa [← same]

end Tree

section Scripts

open ConfigSweep.Tree

theorem EditValue.ofTree_callFree {t : Tree} (callFree : t.CallFree) {value : EditValue}
    (done : EditValue.ofTree t = .ok value) : ∀ call, value ≠ .computed call := by
  unfold EditValue.ofTree at done
  split at done
  · rw [callFree.get?_eval] at done
    obtain rfl := Except.ok.inj done
    nofun
  · obtain rfl := Except.ok.inj done
    nofun

theorem Edit.ArgumentFrom.callFree {t : Tree} {position : Int} {value : Option EditValue}
    (argument : ArgumentFrom t position value) (callFree : t.CallFree) :
    ∀ call, value ≠ some (.computed call) := by
  cases argument with
  | position counts => nofun
  | @pair _ second _ _ counts read =>
    intro call same
    exact EditValue.ofTree_callFree (callFree.item second (by simp)) read call (Option.some.inj same)

theorem Edit.ofTree_callFree {t : Tree} (callFree : t.CallFree) {edit : Edit}
    (done : Edit.ofTree t = .ok edit) : edit.CallFree := by
  cases Edit.ofTree_iff.mp done with
  | insert named reveals read =>
    exact read.callFree ((callFree.value _ List.mem_cons_self).revealAll reveals)
  | overwrite named reveals read =>
    exact read.callFree ((callFree.value _ List.mem_cons_self).revealAll reveals)
  | remove named reveals counts => trivial

theorem Script.ofTree_callFree {t : Tree} (callFree : t.CallFree) {script : Script}
    (done : Script.ofTree t = .ok script) : ∀ edit ∈ script, edit.CallFree := by
  intro edit member
  obtain ⟨c, child, read⟩ := Script.exists_child_of_ofTree done edit member
  exact Edit.ofTree_callFree (Everywhere.child callFree c child) read

end Scripts

namespace Patch

variable {trail : Trail}

section Everywhere

variable {asks : Tree → Prop} {holds : Patch → Prop}

/-- All that is read of the tree, as a node or as upserts, has the property everywhere. -/
structure ReadsEverywhere (holds : Patch → Prop) (t : Tree) : Prop where
  node : ∀ trail p, ofTreeAt t trail = .ok p → p.Everywhere holds
  upserts : ∀ trail us, upsertsOf t trail = .ok us → ∀ u ∈ us, u.2.Everywhere holds

theorem ofParts_everywhere {entries : List (String × Tree)} {parts : List Part}
    (read : PartsFrom trail entries parts) (values : ∀ e ∈ entries, ReadsEverywhere holds e.2) :
    ∀ c ∈ (ofParts parts).patches, c.Everywhere holds := by
  intro c member
  obtain ⟨e, among, reads | ⟨us, reads, u, inside, rfl⟩⟩ := mem_patches_ofParts read member
  · exact (values e among).node _ _ reads
  · exact (values e among).upserts _ _ reads u inside

theorem ofItems_everywhere {items : List Tree} {start : Nat} {ps : List Patch}
    (done : ofItems items start trail = .ok ps) (each : ∀ t ∈ items, ReadsEverywhere holds t) :
    ∀ p ∈ ps, p.Everywhere holds := by
  intro p member
  obtain ⟨t, inside, trail', reads⟩ := exists_left (ofItems_from done) p member
  exact (each t inside).node _ _ reads

theorem NamedFrom.everywhere {entries : List (String × Tree)} {below : String → Trail}
    {named : List (String × Patch)} (read : NamedFrom below entries named)
    (values : ∀ e ∈ entries, ReadsEverywhere holds e.2) : ∀ n ∈ named, n.2.Everywhere holds := by
  intro n member
  obtain ⟨e, among, -, reads⟩ := exists_left read n member
  exact (values e among).node _ _ reads

/-- What holds of every patch that is read of a node holds of all patches within the patch that is
read of a tree. -/
theorem readsEverywhere
    (here : ∀ t trail p, t.Everywhere asks → ofTreeAt t trail = .ok p → holds p) {t : Tree}
    (asked : t.Everywhere asks) : ReadsEverywhere holds t := by
  induction t using Tree.children_induction with
  | node t ih =>
    have below : t.AllChildren (ReadsEverywhere holds) := fun c member =>
      ih c member (asked.child c member)
    constructor
    · intro trail p done
      refine .intro (here _ trail p asked done) ?_
      cases ofTreeAt_iff.mp done with
      | list read => exact ofItems_everywhere read (Tree.allChildren_list.mp below)
      | sparse kind read =>
        refine List.forall_mem_map.mpr fun slot member => ?_
        obtain ⟨n, inside, same⟩ := SparseList.mem_ofEntries member
        exact same ▸ read.everywhere (Tree.allChildren_mapping.mp below) n inside
      | edits kind scripted read =>
        exact ofParts_everywhere read fun e member =>
          Tree.allChildren_mapping.mp below e (Mapping.mem_of_mem_remove member)
      | keyed kind read => exact ofParts_everywhere read (Tree.allChildren_mapping.mp below)
      | _ => exact List.forall_mem_nil _
    · intro trail us done u member
      cases upsertsOf_iff.mp done with
      | items read =>
        obtain ⟨p, inside, rfl⟩ := List.mem_map.mp member
        exact ofItems_everywhere read (Tree.allChildren_list.mp below) p inside
      | named read =>
        obtain ⟨n, inside, rfl⟩ := mem_orderUpserts member
        exact read.everywhere (Tree.allChildren_mapping.mp below) n inside

end Everywhere

/-- A tree that asks for no call is read as a patch that makes no call on the root. -/
theorem callFree_of_ofTreeAt {t : Tree} (callFree : t.CallFree) {p : Patch}
    (done : ofTreeAt t trail = .ok p) : p.CallFree := by
  refine (readsEverywhere (fun t trail p callFree done => ?_) callFree).node trail p done
  cases ofTreeAt_iff.mp done with
  | fromRoot kind =>
    have asked := get?_of_reading_call kind
    rw [Tree.CallFree.get?_eval callFree] at asked
    cases asked
  | edits kind scripted =>
    have given := Tree.CallFree.value callFree _ (mem_of_reading_script kind)
    exact Script.ofTree_callFree given scripted
  | _ => trivial

end Patch

end ConfigSweep
