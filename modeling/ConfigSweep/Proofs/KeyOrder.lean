import ConfigSweep.Proofs.AssignmentOrder
import ConfigSweep.Proofs.Composition
import ConfigSweep.Proofs.Silence

/-!
# Patches with their keys in another order

Without calls nothing in a patch hangs on the order in which its mappings list their keys, as long
as upserts are ranked by positions and no two keys of a mapping stand for one position.
-/

namespace ConfigSweep

/-- Keys without a position stand for themselves. -/
theorem Step.ofToken_eq_key {key name : String} :
    ofToken key = .key name ↔ Position.ofToken? key = none ∧ key = name := by
  unfold ofToken
  cases Position.ofToken? key <;> simp

namespace Tree

/-- Entries under one key whose values are related. -/
inductive UnderOneKey (relation : Tree → Tree → Prop) : String × Tree → String × Tree → Prop where
  | mk (key : String) {t u : Tree} (values : relation t u) : UnderOneKey relation (key, t) (key, u)

/-- The trees differ only in the order in which their mappings list their keys. -/
inductive Reordered : Tree → Tree → Prop where
  | leaf {t : Tree} (leaf : t.isLeaf = true) : Reordered t t
  | list {items others : List Tree} (each : List.Forall₂ Reordered items others) :
      Reordered (.list items) (.list others)
  | mapping {entries middle others : Mapping Tree} (moved : entries.Perm middle)
      (each : List.Forall₂ (UnderOneKey Reordered) middle others) :
      Reordered (.mapping entries) (.mapping others)

/-- The keys of the node, if it is a mapping. -/
abbrev nodeKeys (t : Tree) : List String :=
  Mapping.keys (t.entries?.getD [])

/-- No two keys of the node stand for one position of a list. -/
def PositionsApart (t : Tree) : Prop :=
  ∀ k ∈ t.nodeKeys, ∀ l ∈ t.nodeKeys, Position.isToken k = true →
    Position.ofToken? k = Position.ofToken? l → k = l

/-- The upserts that the node asks for are a list or are keyed by positions. -/
def UpsertsRanked (t : Tree) : Prop :=
  ∀ k ∈ ((t.field? Keyword.upsert).getD .null).nodeKeys, Position.isToken k = true

instance (t : Tree) : Decidable t.PositionsApart :=
  inferInstanceAs (Decidable (∀ k ∈ t.nodeKeys, ∀ l ∈ t.nodeKeys, _ → _ → _))

instance (t : Tree) : Decidable t.UpsertsRanked :=
  inferInstanceAs (Decidable (∀ k ∈ _, _))

/-- The order of the keys of the node does not matter. -/
structure OrderFree (t : Tree) : Prop where
  silent : t.asksForCall = false
  ranked : t.UpsertsRanked
  apart : (t.nodeKeys.map Step.ofToken).Nodup

section Nodes

variable {t u : Tree}

/-- Keys that are distinct and for distinct positions stand for distinct places. -/
theorem nodup_places (unique : t.nodeKeys.Nodup) (apart : t.PositionsApart) :
    (t.nodeKeys.map Step.ofToken).Nodup := by
  refine unique.map_on fun k first l second places => ?_
  cases place : Step.ofToken k with
  | index position =>
    have token := Step.ofToken_eq_index.mp place
    have token' := Step.ofToken_eq_index.mp (places ▸ place)
    exact apart k first l second (Option.isSome_of_eq_some token) (token.trans token'.symm)
  | key name =>
    have own := Step.ofToken_eq_key.mp place
    have own' := Step.ofToken_eq_key.mp (places ▸ place)
    exact own.2.trans own'.2.symm

theorem nodup_nodeKeys (distinct : t.Distinct) : t.nodeKeys.Nodup := by
  cases t with
  | mapping entries => exact distinct.1
  | _ => exact .nil

theorem nodeKeys_of_view (same : t.view = u.view) : t.nodeKeys.Perm u.nodeKeys := by
  cases t with
  | mapping entries =>
    obtain ⟨others, rfl, views⟩ := view_mapping same
    exact keys_of_view views
  | list items =>
    obtain ⟨others, rfl, -⟩ := view_list same
    exact .refl _
  | _ => rw [view_leaf rfl same]

theorem asksForCall_of_view (same : t.view = u.view) : t.asksForCall = u.asksForCall := by
  cases t with
  | mapping entries =>
    obtain ⟨others, rfl, views⟩ := view_mapping same
    exact has_of_view views Keyword.eval
  | list items =>
    obtain ⟨others, rfl, -⟩ := view_list same
    rfl
  | _ => rw [view_leaf rfl same]

theorem UpsertsRanked.of_view (same : t.view = u.view) (ranked : t.UpsertsRanked) :
    u.UpsertsRanked := by
  have fields := field?_of_view same Keyword.upsert
  have looked : ∀ w : Tree, ((w.field? Keyword.upsert).getD .null).view
      = ((w.field? Keyword.upsert).map view).getD (view .null) := fun w => (Option.getD_map ..).symm
  have views : ((t.field? Keyword.upsert).getD .null).view
      = ((u.field? Keyword.upsert).getD .null).view := by
    rw [looked, looked, fields]
  exact fun k member => ranked k ((nodeKeys_of_view views).mem_iff.mpr member)

theorem OrderFree.of_view (same : t.view = u.view) (free : t.OrderFree) : u.OrderFree where
  silent := asksForCall_of_view same ▸ free.silent
  ranked := free.ranked.of_view same
  apart := ((nodeKeys_of_view same).map _).nodup_iff.mp free.apart

theorem everywhere_orderFree (distinct : t.Distinct) (silent : t.Silent)
    (ranked : t.Everywhere UpsertsRanked) (apart : t.Everywhere PositionsApart) :
    t.Everywhere OrderFree := by
  have all := (Everywhere.distinct distinct).and (Everywhere.and silent (ranked.and apart))
  refine Everywhere.imp (fun node told => ?_) all
  obtain ⟨unique, quiet, ranked, apart⟩ := told
  exact ⟨quiet, ranked, nodup_places (nodup_nodeKeys unique) apart⟩

end Nodes

/-- Trees of one view differ only in the order of keys. -/
theorem reordered_of_view {t : Tree} : ∀ {u : Tree}, t.view = u.view → t.Reordered u := by
  induction t using children_induction with
  | node t ih =>
    intro u same
    have each : t.AllChildren fun t => ∀ {u : Tree}, t.view = u.view → t.Reordered u := ih
    cases t with
    | list items =>
      obtain ⟨others, rfl, views⟩ := view_list same
      have related := (List.forall₂_and_left _ _).mpr
        ⟨allChildren_list.mp each, forall₂_of_map_eq views⟩
      exact .list (related.imp fun _ _ both => both.1 both.2)
    | mapping entries =>
      obtain ⟨others, rfl, views⟩ := view_mapping same
      have own : List.Forall₂ (fun v d => v = (d.1, d.2.view)) (viewed entries) entries :=
        List.forall₂_map_left_iff.mpr (List.forall₂_same.mpr fun _ _ => rfl)
      -- the entries in the order of the other mapping
      obtain ⟨middle, alike, moved⟩ := List.perm_comp_forall₂ (viewed_perm views).symm own
      have pairs := (List.forall₂_map_left_iff.mp alike).flip
      have inside : ∀ d ∈ middle, ∀ {u : Tree}, d.2.view = u.view → d.2.Reordered u :=
        fun d member => allChildren_mapping.mp each d (moved.mem_iff.mp member)
      refine .mapping moved.symm (((List.forall₂_and_left _ _).mpr ⟨inside, pairs⟩).imp ?_)
      rintro ⟨key, a⟩ ⟨key', b⟩ ⟨reorders, same⟩
      obtain ⟨rfl, views⟩ := Prod.mk.inj same
      exact .mk key' (reorders views.symm)
    | _ =>
      rw [view_leaf rfl same]
      exact .leaf rfl

section Reading

variable {evaluator : Evaluator} {entries : Mapping Tree}

/-- Where nothing asks for a call, any two keys for different places may trade places. -/
theorem interchange (silent : (Tree.mapping entries).Silent)
    (apart : ((Tree.mapping entries).nodeKeys.map Step.ofToken).Nodup) {asUpserts : Prop}
    (ranked : asUpserts → ∀ k ∈ Mapping.keys entries, Position.isToken k = true) {k l : String}
    (listed : k ∈ Mapping.keys entries) (listed' : l ∈ Mapping.keys entries) (other : k ≠ l) :
    Interchange entries asUpserts k l := by
  have places : ∀ k ∈ Mapping.keys entries, ∀ l ∈ Mapping.keys entries, k ≠ l →
      Step.ofToken k ≠ Step.ofToken l := fun k first l second other same =>
    other (List.inj_on_of_nodup_map apart first second same)
  have callFree := silent.callFree.value
  constructor
  · exact places k listed l listed' other
  · intro asked
    rw [Mapping.isPositional_eq, Bool.and_eq_true, Bool.not_eq_true', List.all_eq_true]
    exact ⟨List.isEmpty_eq_false_iff_exists_mem.mpr ⟨k, listed⟩, ranked asked⟩
  · intro _ _ _ t found
    exact callFree (k, t) (Mapping.mem_of_get? found)
  · intro _ a member _
    exact ⟨callFree a member, fun b member' _ => places a.1 (Mapping.mem_keys_of_mem member) b.1
      (Mapping.mem_keys_of_mem member')⟩

/-- A tree whose keys are in no order that matters is read alike in any order of keys. -/
theorem Reordered.readsLike (unordered : evaluator.Unordered) {t : Tree} :
    ∀ {u : Tree} {asUpserts : Prop}, t.Everywhere OrderFree →
      (asUpserts → ∀ k ∈ t.nodeKeys, Position.isToken k = true) → t.Reordered u →
        t.ReadsLike evaluator asUpserts u := by
  induction t using children_induction with
  | node t ih =>
    intro u asUpserts free ranked reordered
    cases reordered with
    | leaf _ => exact .refl unordered t
    | @list items others each =>
      have inside : ∀ a ∈ items, ∀ b, a.Reordered b → a.ReadsLike evaluator False b := by
        intro a member b reordered
        obtain ⟨_, child⟩ := exists_child_of_item member
        exact ih _ child (free.child _ child) False.elim reordered
      exact .list (((List.forall₂_and_left _ _).mpr ⟨inside, each⟩).imp
        fun _ _ both => both.1 _ both.2)
    | @mapping entries middle others moved each =>
      have unique : (Mapping.keys entries).Nodup := free.here.apart.of_map
      have alike : ∀ d ∈ middle, ∀ e, UnderOneKey Reordered d e → EntryLike evaluator d e := by
        rintro ⟨key, a⟩ member _ (@⟨_, _, b, reordered⟩)
        have listed := moved.mem_iff.mpr member
        have child := child_of_entry listed
        refine ⟨rfl, ih _ child (free.child _ child) (fun asked => ?_) reordered⟩
        have field : (Tree.mapping entries).field? Keyword.upsert = some a :=
          Mapping.get?_of_mem unique (asked ▸ listed)
        have rankedHere := free.here.ranked
        rwa [UpsertsRanked, field] at rankedHere
      have moves : (Tree.mapping entries).ReadsLike evaluator asUpserts (.mapping middle) := by
        have swapped := @ReadsLike.perm evaluator entries middle [] asUpserts unordered moved
        rw [List.append_nil, List.append_nil] at swapped
        have silent : (Tree.mapping entries).Silent := Everywhere.imp (fun _ node => node.silent) free
        exact swapped unique fun k first l second other =>
          interchange silent free.here.apart ranked first second other
      exact moves.trans (.mapping unordered (((List.forall₂_and_left _ _).mpr ⟨alike, each⟩).imp
        fun _ _ both => both.1 _ both.2))

end Reading

/-- Outcomes that follow each other both fail, or yield trees that differ in the order of keys. -/
theorem rel_reordered {first second : Outcome Tree} (forth : first.Follows SameView second)
    (back : second.Follows SameView first) :
    Option.Rel Reordered first.toOption second.toOption := by
  have views := Outcome.map_view_eq forth back
  generalize first.toOption = one at views ⊢
  generalize second.toOption = two at views ⊢
  cases one with
  | none =>
    rw [Option.map_eq_none_iff.mp views.symm]
    exact .none
  | some t =>
    obtain ⟨u, rfl, same⟩ := Option.map_eq_some_iff.mp views.symm
    exact .some (reordered_of_view same.symm)

/-- The order of the keys in a patch without calls does not matter: in any order it is merged into
a base or fails, and the merged trees differ in the order of keys at most. -/
theorem merge_reordered (evaluator : Evaluator) (base patch other : Tree) (distinct : patch.Distinct)
    (silent : patch.Silent) (ranked : patch.Everywhere UpsertsRanked)
    (apart : patch.Everywhere PositionsApart) (reordered : patch.Reordered other) :
    Option.Rel Reordered (Tree.merge evaluator base patch).toOption
      (Tree.merge evaluator base other).toOption := by
  have unordered := Evaluator.unordered_refusing
  have free := everywhere_orderFree distinct silent ranked apart
  have like : patch.ReadsLike .refusing False other :=
    reordered.readsLike unordered free False.elim
  have free' : other.Everywhere OrderFree := free.of_view (fun _ _ => .of_view) like.view
  have back : other.ReadsLike .refusing False patch :=
    (reordered_of_view like.view.symm).readsLike unordered free' False.elim
  have silent' : other.Silent := Everywhere.imp (fun _ node => node.silent) free'
  rw [silent.merge_eq evaluator .refusing, silent'.merge_eq evaluator .refusing]
  exact rel_reordered (like.merge base) (back.merge base)

section Layers

/-- A script with its payload. -/
def widenLayer : Mapping Tree :=
  [("dy__list__operations", .list [.mapping [("dy__overwrite", .int 0)]]), ("width", .int 2),
    ("depth", .int 3)]

def seedThenRate : Mapping Tree :=
  [("__IDX__0", .mapping [("seed", .int 4)]), ("__IDX__1", .mapping [("lr", .int 3)])]

/-- Values, a script, a group and ranked upserts. -/
def layersEntries : Mapping Tree :=
  [("lr", .int 1), ("layers", .mapping widenLayer),
    ("sweep_group_warm", .mapping [("lr", .int 2)]), ("dy__upsert", .mapping seedThenRate)]

def layersPatch : Tree :=
  .mapping layersEntries

/-- The same patch with the keys of three mappings in reverse. -/
def layersReversed : Tree :=
  .mapping [("dy__upsert", .mapping seedThenRate.reverse),
    ("sweep_group_warm", .mapping [("lr", .int 2)]), ("layers", .mapping widenLayer.reverse),
    ("lr", .int 1)]

def layersBase : Tree :=
  .mapping [("lr", .int 0), ("layers", .list [.mapping [("width", .int 1)]])]

def layersMerged : Tree :=
  .mapping [("lr", .int 3), ("layers", .list [.mapping [("width", .int 2), ("depth", .int 3)]]),
    ("seed", .int 4)]

theorem reordered_refl (t : Tree) : t.Reordered t :=
  reordered_of_view rfl

theorem reordered_reverse (entries : Mapping Tree) :
    (Tree.mapping entries).Reordered (.mapping entries.reverse) :=
  .mapping entries.reverse_perm.symm
    (List.forall₂_same.mpr fun e _ => .mk e.1 (reordered_refl e.2))

theorem layers_reordered : layersPatch.Reordered layersReversed :=
  .mapping (List.reverse_perm _).symm <|
    .cons (.mk _ (reordered_reverse _)) <| .cons (.mk _ (reordered_refl _)) <|
      .cons (.mk _ (reordered_reverse _)) <| .cons (.mk _ (reordered_refl _)) .nil

/-- What the patch is merged to, its upserts in the order of their positions. -/
theorem merge_layersPatch : Tree.merge .refusing layersBase layersPatch = .ok layersMerged := by
  have composed : layersEntries.Composed := ⟨by decide, rfl, rfl, rfl, by decide⟩
  have ranked : ∀ p q : Patch, Patch.orderUpserts [("__IDX__0", p), ("__IDX__1", q)]
      = [(some "__IDX__0", p), (some "__IDX__1", q)] := by
    intro p q
    have zero : Position.ofToken? "__IDX__0" = some 0 := by decide
    have one : Position.ofToken? "__IDX__1" = some 1 := by decide
    simp [Patch.orderUpserts, mergeSort_pair, Mapping.isPositional_eq, Position.isToken, zero, one]
  have read : Patch.PartsFrom .root layersEntries
      [.plain "lr" (.scalar (.int 1)),
        .plain "layers" (.edits [.overwrite 0 none]
          (Patch.ofParts [.plain "depth" (.scalar (.int 3)), .plain "width" (.scalar (.int 2))])),
        .group "sweep_group_warm" (.keyed (Patch.ofParts [.plain "lr" (.scalar (.int 2))])),
        .upserts [(some "__IDX__0", .keyed (Patch.ofParts [.plain "seed" (.scalar (.int 4))])),
          (some "__IDX__1", .keyed (Patch.ofParts [.plain "lr" (.scalar (.int 3))]))]] :=
    .cons (.plain _ rfl (by decide) rfl) <| .cons (.plain _ rfl (by decide) rfl) <|
      .cons (.group _ rfl rfl) <| .cons (.upserts _ rfl (congrArg Except.ok (ranked _ _))) .nil
  exact (merge_composed_eq_ok composed).mpr
    ⟨_, layersMerged, read, by with_unfolding_all rfl, rfl, rfl⟩

/-- The reversed patch is merged to the same tree but for the order of keys. -/
theorem merge_layersReversed : layersPatch.Distinct ∧ layersPatch.Silent ∧
    layersPatch.Everywhere UpsertsRanked ∧ layersPatch.Everywhere PositionsApart ∧
    layersPatch.Reordered layersReversed ∧
    Tree.merge .refusing layersBase layersPatch = .ok layersMerged ∧
    ∃ merged, Tree.merge .refusing layersBase layersReversed = .ok merged ∧
      layersMerged.Reordered merged := by
  refine ⟨by decide, by decide, by decide, by decide, layers_reordered, merge_layersPatch, ?_⟩
  have both := merge_reordered .refusing layersBase layersPatch layersReversed (by decide)
    (by decide) (by decide) (by decide) layers_reordered
  rw [merge_layersPatch] at both
  cases second : Tree.merge .refusing layersBase layersReversed with
  | error failure =>
    rw [second] at both
    cases both
  | ok merged =>
    rw [second] at both
    cases both with
    | some same => exact ⟨merged, rfl, same⟩

end Layers

end Tree

end ConfigSweep
