import ConfigSweep.Proofs.CallFree
import ConfigSweep.Proofs.UpsertOrder

/-!
# Trees that are read like others

A tree is read like another when both have one view and every patch that the other is read as is
followed by the patch that the tree is read as. Mappings that list the same keys in the same order
are read alike when their values are.
-/

namespace ConfigSweep

/-- What can be read of the first tree, the second is read as something that follows it. Upserts
count only where they are asked for. -/
structure Tree.ReadsLike (evaluator : Evaluator) (asUpserts : Prop) (t u : Tree) : Prop where
  view : t.SameView u
  node : ∀ trail,
    (Patch.ofTreeAt t trail).Follows (Patch.Follows evaluator) (Patch.ofTreeAt u trail)
  upserts : asUpserts → ∀ trail,
    (Patch.upsertsOf t trail).Follows (Patch.Aligned evaluator) (Patch.upsertsOf u trail)

/-- Entries under one key whose values are read alike. -/
abbrev Tree.EntryLike (evaluator : Evaluator) (d e : String × Tree) : Prop :=
  d.1 = e.1 ∧ d.2.ReadsLike evaluator (d.1 = Keyword.upsert) e.2

theorem Patch.Aligned.trans {evaluator : Evaluator} {κ : Type}
    {as bs cs : List (κ × Patch)} (left : Aligned evaluator as bs)
    (right : Aligned evaluator bs cs) : Aligned evaluator as cs := by
  induction left generalizing cs with
  | nil => exact right
  | cons first rest ih =>
    cases right with
    | cons first' rest' =>
      exact .cons ⟨first.1.trans first'.1, first.2.trans first'.2⟩ (ih rest')

namespace Tree

variable {evaluator : Evaluator} {asUpserts : Prop} {t u w : Tree}

theorem ReadsLike.refl (unordered : evaluator.Unordered) (t : Tree) :
    t.ReadsLike evaluator asUpserts t where
  view := rfl
  node := fun _ p done => ⟨p, done, Patch.follows_self unordered p⟩
  upserts := fun _ _ us done => ⟨us, done, Patch.follows_upserts unordered us⟩

theorem ReadsLike.trans (left : t.ReadsLike evaluator asUpserts u)
    (right : u.ReadsLike evaluator asUpserts w) : t.ReadsLike evaluator asUpserts w where
  view := Eq.trans left.view right.view
  node := fun trail => (left.node trail).trans (right.node trail) fun _ _ _ => .trans
  upserts := fun asked trail => (left.upserts asked trail).trans (right.upserts asked trail)
    fun _ _ _ => .trans

end Tree

namespace Patch

variable {evaluator : Evaluator}

section Reading

open ConfigSweep.Tree

/-- Readings of mappings of one view. -/
inductive Reading.Alike : Reading → Reading → Prop where
  | call {payload payload' : Tree} (same : payload.SameView payload') :
      Alike (.call payload) (.call payload')
  | crowdedCall : Alike .crowdedCall .crowdedCall
  | axis : Alike .axis .axis
  | script {operations operations' : Tree} (same : operations.SameView operations') :
      Alike (.script operations) (.script operations')
  | sparse : Alike .sparse .sparse
  | keyed : Alike .keyed .keyed

theorem reading_of_view {m n : Mapping Tree} (views : viewEntries m = viewEntries n) :
    (reading m).Alike (reading n) := by
  have absent : ∀ {key}, Mapping.get? key m = none → Mapping.get? key n = none := by
    intro key none'
    have values := map_get?_of_view views key
    rw [none'] at values
    exact Option.map_eq_none_iff.mp values.symm
  unfold reading
  rw [has_of_view views, isPositional_of_view views]
  cases asked : Mapping.get? Keyword.eval m with
  | some payload =>
    obtain ⟨payload', asked', same⟩ := get?_of_view views asked
    rw [asked', length_of_view views]
    dsimp only
    split
    · exact .crowdedCall
    · exact .call same
  | none =>
    rw [absent asked]
    dsimp only
    split
    · exact .axis
    · cases scripted : Mapping.get? Keyword.operations m with
      | some operations =>
        obtain ⟨operations', scripted', same⟩ := get?_of_view views scripted
        rw [scripted']
        exact .script same
      | none =>
        rw [absent scripted]
        dsimp only
        split
        · exact .sparse
        · exact .keyed

end Reading

section Parts

/-- Parts of one kind under one key whose patches follow each other. -/
inductive PartLike (evaluator : Evaluator) : Part → Part → Prop where
  | plain (key : String) {p q : Patch} (follows : Follows evaluator p q) :
      PartLike evaluator (.plain key p) (.plain key q)
  | group (key : String) {p q : Patch} (follows : Follows evaluator p q) :
      PartLike evaluator (.group key p) (.group key q)
  | upserts {us vs : List (Option String × Patch)} (aligned : Aligned evaluator us vs) :
      PartLike evaluator (.upserts us) (.upserts vs)

theorem PartFrom.like {trail : Trail} {d e : String × Tree} (like : Tree.EntryLike evaluator d e)
    {part : Part} (from' : PartFrom trail d part) :
    ∃ part', PartFrom trail e part' ∧ PartLike evaluator part part' := by
  obtain ⟨key, t⟩ := d
  obtain ⟨key', u⟩ := e
  obtain ⟨rfl, reads⟩ : key = key' ∧ _ := like
  cases from' with
  | group p named read =>
    obtain ⟨q, read', follows⟩ := reads.node _ p read
    exact ⟨_, .group q named read', .group key follows⟩
  | upserts us named read =>
    obtain ⟨vs, read', aligned⟩ := reads.upserts named _ us read
    exact ⟨_, .upserts vs named read', .upserts aligned⟩
  | plain p single named read =>
    obtain ⟨q, read', follows⟩ := reads.node _ p read
    exact ⟨_, .plain q single named read', .plain key follows⟩

theorem PartsFrom.like {trail : Trail} {m n : Mapping Tree}
    (like : List.Forall₂ (Tree.EntryLike evaluator) m n) {parts : List Part}
    (read : PartsFrom trail m parts) :
    ∃ parts', PartsFrom trail n parts' ∧ List.Forall₂ (PartLike evaluator) parts parts' := by
  induction like generalizing parts with
  | nil =>
    cases read
    exact ⟨[], .nil, .nil⟩
  | cons first rest ih =>
    cases read with
    | cons here later =>
      obtain ⟨part', here', partLike⟩ := here.like first
      obtain ⟨parts', later', partsLike⟩ := ih later
      exact ⟨part' :: parts', .cons here' later', .cons partLike partsLike⟩

theorem ofParts_aligned {parts parts' : List Part}
    (like : List.Forall₂ (PartLike evaluator) parts parts') :
    (ofParts parts).Aligned evaluator (ofParts parts') where
  entries := by
    refine forall₂_filterMap like fun a b here => ?_
    cases here with
    | plain key follows => exact .some ⟨rfl, follows⟩
    | _ => exact .none
  groups := by
    refine forall₂_mergeSort (forall₂_filterMap like fun a b here => ?_) ?_
    · cases here with
      | group key follows => exact .some ⟨rfl, follows⟩
      | _ => exact .none
    · intro a b c d first second
      rw [first.1, second.1]
  upserts := by
    have lists : List.Forall₂ (Aligned evaluator) (parts.filterMap Part.upserts?)
        (parts'.filterMap Part.upserts?) := by
      refine forall₂_filterMap like fun a b here => ?_
      cases here with
      | upserts aligned => exact .some aligned
      | _ => exact .none
    have last := forall₂_getLast? lists
    unfold ofParts
    dsimp only
    generalize (parts.filterMap Part.upserts?).getLast? = first at last ⊢
    generalize (parts'.filterMap Part.upserts?).getLast? = second at last ⊢
    cases last with
    | some aligned => exact aligned
    | none => exact .nil

end Parts

section Named

theorem NamedFrom.like {below : String → Trail} {m n : Mapping Tree}
    (like : List.Forall₂ (Tree.EntryLike evaluator) m n) {named : List (String × Patch)}
    (read : NamedFrom below m named) :
    ∃ named', NamedFrom below n named' ∧ Aligned evaluator named named' := by
  induction like generalizing named with
  | nil =>
    cases read
    exact ⟨[], .nil, .nil⟩
  | @cons d e _ _ first rest ih =>
    cases read with
    | @cons _ a _ _ here later =>
      obtain ⟨q, here', follows⟩ := first.2.node _ _ here.2
      obtain ⟨named', later', aligned⟩ := ih later
      refine ⟨(a.1, q) :: named', .cons ⟨?_, ?_⟩ later', .cons ⟨rfl, follows⟩ aligned⟩
      · exact first.1.symm.trans here.1
      · rw [← first.1]
        exact here'

theorem aligned_orderUpserts {named named' : Mapping Patch}
    (aligned : Aligned evaluator named named') :
    Aligned evaluator (orderUpserts named) (orderUpserts named') := by
  have keys : Mapping.keys named = Mapping.keys named' :=
    map_eq_of_forall₂ (aligned.imp fun _ _ both => both.1)
  unfold orderUpserts
  dsimp only
  rw [Mapping.isPositional_of_perm (.of_eq keys), Aligned, List.forall₂_map_left_iff,
    List.forall₂_map_right_iff]
  split
  · refine (forall₂_mergeSort aligned fun a b c d first second => ?_).imp
      fun _ _ both => ⟨congrArg some both.1, both.2⟩
    rw [first.1, second.1]
  · exact aligned.imp fun _ _ both => ⟨congrArg some both.1, both.2⟩

end Named

end Patch

namespace Tree

variable {evaluator : Evaluator} {m n : Mapping Tree}

open Patch

theorem viewEntries_of_like (like : List.Forall₂ (EntryLike evaluator) m n) :
    viewEntries m = viewEntries n := by
  have views : viewed m = viewed n :=
    map_eq_of_forall₂ (like.imp fun _ _ both => Prod.ext both.1 both.2.view)
  funext place
  rw [viewEntries_eq, viewEntries_eq, views]

theorem ofTreeAt_mapping_follows (unordered : evaluator.Unordered)
    (like : List.Forall₂ (EntryLike evaluator) m n) (trail : Trail) :
    (ofTreeAt (.mapping m) trail).Follows (Patch.Follows evaluator) (ofTreeAt (.mapping n) trail) := by
  intro p done
  have kinds := reading_of_view (viewEntries_of_like like)
  generalize kind' : reading n = how at kinds
  cases ofTreeAt_iff.mp done with
  | scalar leaf => cases leaf
  | fromRoot kind read =>
    rw [kind] at kinds
    cases kinds with
    | call same =>
      exact ⟨_, ofTreeAt_iff.mpr (.fromRoot kind' (Call.ofTree_of_view same read)),
        follows_self unordered _⟩
  | sparse kind read =>
    rw [kind] at kinds
    cases kinds with
    | sparse =>
      obtain ⟨named', read', aligned⟩ := NamedFrom.like like read
      exact ⟨_, ofTreeAt_iff.mpr (.sparse kind' read'), .sparse (SparseList.forall₂_ofEntries aligned)⟩
  | edits kind scripted read =>
    rw [kind] at kinds
    cases kinds with
    | script same =>
      obtain ⟨script', scripted', scripts⟩ := Script.ofTree_follows same _ scripted
      obtain ⟨parts', read', partsLike⟩ := PartsFrom.like
        (Mapping.forall₂_remove (fun _ _ both => both.1) like Keyword.operations) read
      exact ⟨_, ofTreeAt_iff.mpr (.edits kind' scripted' read'),
        .edits unordered scripts (Merge.keyed_follows (ofParts_aligned partsLike))⟩
  | keyed kind read =>
    rw [kind] at kinds
    cases kinds with
    | keyed =>
      obtain ⟨parts', read', partsLike⟩ := PartsFrom.like like read
      exact ⟨_, ofTreeAt_iff.mpr (.keyed kind' read'),
        .keyed (Merge.keyed_follows (ofParts_aligned partsLike))⟩

theorem ofItems_follows {items others : List Tree}
    (like : List.Forall₂ (ReadsLike evaluator False) items others) (position : Nat) (trail : Trail) :
    (ofItems items position trail).Follows (List.Forall₂ (Patch.Follows evaluator))
      (ofItems others position trail) := by
  induction like generalizing position with
  | nil => exact .ok .nil
  | cons first rest ih =>
    exact (first.node _).bind fun _ _ here => (ih (position + 1)).bind fun _ _ later =>
      .ok (.cons here later)

/-- Lists whose items are read alike are read alike. -/
theorem ReadsLike.list {asUpserts : Prop} {items others : List Tree}
    (like : List.Forall₂ (ReadsLike evaluator False) items others) :
    (Tree.list items).ReadsLike evaluator asUpserts (.list others) where
  view := by
    have views : items.map Tree.view = others.map Tree.view :=
      map_eq_of_forall₂ (like.imp fun _ _ both => both.view)
    show (Tree.list items).view = (Tree.list others).view
    rw [Tree.view, Tree.view, viewItems_eq, viewItems_eq, views]
  node := by
    intro trail p done
    cases ofTreeAt_iff.mp done with
    | scalar leaf => cases leaf
    | list read =>
      obtain ⟨qs, read', follows⟩ := ofItems_follows like 0 trail _ read
      exact ⟨_, ofTreeAt_iff.mpr (.list read'), .list follows⟩
  upserts := fun _ trail => (ofItems_follows like 0 trail).bind fun _ _ follows =>
    .ok (List.forall₂_map_left_iff.mpr (List.forall₂_map_right_iff.mpr
      (follows.imp fun _ _ here => ⟨rfl, here⟩)))

/-- Mappings whose values are read alike, key by key, are read alike. -/
theorem ReadsLike.mapping (unordered : evaluator.Unordered) {asUpserts : Prop}
    (like : List.Forall₂ (EntryLike evaluator) m n) :
    (Tree.mapping m).ReadsLike evaluator asUpserts (.mapping n) where
  view := congrArg View.mapping (viewEntries_of_like like)
  node := ofTreeAt_mapping_follows unordered like
  upserts := by
    intro _ trail us done
    cases upsertsOf_iff.mp done with
    | named read =>
      obtain ⟨named', read', aligned⟩ := NamedFrom.like like read
      exact ⟨_, upsertsOf_iff.mpr (.named read'), aligned_orderUpserts aligned⟩

end Tree

end ConfigSweep
