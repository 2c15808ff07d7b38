import ConfigSweep.Proofs.ChoiceOrder
import ConfigSweep.Session

/-!
# The order of an assignment

An assignment lists choices, and their order is the order in which the keys that lead to assigned
axes come first in the overrides. The configuration does not depend on it where those keys may trade
places. Elsewhere it does: a call on the root sees what was merged before it.
-/

namespace ConfigSweep

theorem Evaluator.unordered_refusing : Evaluator.refusing.Unordered :=
  nofun

namespace Tree

section Residue

/-- A mapping without reserved keys. -/
def Unreserved (t : Tree) : Prop :=
  ∀ entries, t = .mapping entries → ∀ key ∈ Mapping.keys entries, Keyword.isReserved key = false

theorem Unreserved.of_view (t u : Tree) (same : t.view = u.view) (free : t.Unreserved) :
    u.Unreserved := by
  rintro entries rfl key member
  obtain ⟨others, rfl, views⟩ := view_mapping same.symm
  exact free others rfl key ((keys_of_view views).mem_iff.mp member)

mutual

/-- The check of a merged tree looks at all keys of all its mappings. -/
theorem checkPlainAt_eq_ok : ∀ (t : Tree) (trail : Trail),
    t.checkPlainAt trail = .ok () ↔ t.Everywhere Unreserved
  | .list items, trail => by
    rw [checkPlainAt, checkPlainItems_eq_ok items 0 trail]
    exact (and_iff_right (by nofun)).symm
  | .mapping entries, trail => by
    rw [checkPlainAt, checkPlainEntries_eq_ok entries trail]
    refine and_congr_left fun _ => ⟨fun free _ same => Tree.mapping.inj same ▸ free, fun free => ?_⟩
    exact free entries rfl
  | .null, _ | .bool _, _ | .int _, _ | .float _, _ | .str _, _ => iff_of_true rfl nofun

theorem checkPlainItems_eq_ok : ∀ (items : List Tree) (position : Nat) (trail : Trail),
    checkPlainItems items position trail = .ok () ↔ EverywhereItems Unreserved items
  | [], _, _ => iff_of_true rfl trivial
  | t :: ts, position, trail => by
    rw [checkPlainItems, bind_eq_ok, EverywhereItems,
      ← checkPlainAt_eq_ok t (trail.child (toString position)),
      ← checkPlainItems_eq_ok ts (position + 1) trail]
    exact Unique.exists_iff

theorem checkPlainEntries_eq_ok : ∀ (entries : List (String × Tree)) (trail : Trail),
    checkPlainEntries entries trail = .ok () ↔
      (∀ key ∈ Mapping.keys entries, Keyword.isReserved key = false) ∧
        EverywhereEntries Unreserved entries
  | [], _ => iff_of_true rfl ⟨nofun, trivial⟩
  | (key, t) :: rest, trail => by
    rw [checkPlainEntries, Mapping.keys_cons, List.forall_mem_cons, EverywhereEntries]
    cases reserved : Keyword.isReserved key with
    | true => exact iff_of_false nofun (by simp)
    | false =>
      have below : (checkPlainAt t (trail.child key) >>= fun _ => checkPlainEntries rest trail) = .ok ()
          ↔ _ ∧ _ := bind_eq_ok.trans Unique.exists_iff
      rw [checkPlainAt_eq_ok, checkPlainEntries_eq_ok] at below
      exact below.trans (by tauto)

end

end Residue

variable {evaluator : Evaluator} {asUpserts : Prop}

/-- Trees that are read alike are merged into a base alike. -/
theorem ReadsLike.merge {t u : Tree} (like : t.ReadsLike evaluator asUpserts u) (base : Tree) :
    (Tree.merge evaluator base t).Follows SameView (Tree.merge evaluator base u) := by
  intro merged done
  obtain ⟨p, reads, merges, plain⟩ := merge_eq_ok.mp done
  obtain ⟨q, reads', follows⟩ := like.node .root p reads
  obtain ⟨merged', merges', same⟩ := follows .root (rfl : base.SameView base) merged merges
  have free := (checkPlainAt_eq_ok merged .root).mp plain
  have free' := free.of_view Unreserved.of_view same
  exact ⟨merged', merge_eq_ok.mpr ⟨q, reads', merges', (checkPlainAt_eq_ok merged' .root).mpr free'⟩,
    same⟩

end Tree

namespace AliasTable

variable {parameters : Tree} {t : AliasTable} {declared : Mapping Tree}

/-- The keys that lead to axes which an assignment names may trade places in the overrides. -/
def Rearrangeable (parameters : Tree) (assignment : Mapping Tree) (t : AliasTable) : Prop :=
  ∀ overrides, t.overrides assignment = .ok overrides →
    parameters.Swappable (fun path => t.namedBelow parameters path assignment) overrides

section Rearranged

variable {assignment other : Mapping Tree}

/-- An assignment in another order makes the same choices in that order. -/
theorem StandardOf.rearranged (standard : StandardOf parameters t declared)
    (unique : (Mapping.keys assignment).Nodup) (moved : assignment.Perm other) {overrides : Tree}
    (accepted : t.overrides assignment = .ok overrides) :
    ∃ cs cs' : Choices, cs.Into parameters ∧ cs.Perm cs' ∧ overrides = parameters.rebuilt cs ∧
      t.overrides other = .ok (parameters.rebuilt cs') ∧
      ∀ path, (cs.along path).leads = t.namedBelow parameters path assignment := by
  obtain ⟨cs, resolved, chosen, rfl⟩ := standard.exists_choices unique accepted
  have into := named_into unique chosen
  have each := List.forall₂_map_right_iff.mp (mapM_eq_ok.mp resolved)
  obtain ⟨cs', each', back⟩ := List.perm_comp_forall₂ moved.symm each
  have resolved' : t.resolve other = .ok (cs'.map fun c => (.ofSteps c.1, c.2)) :=
    mapM_eq_ok.mpr (List.forall₂_map_right_iff.mpr each')
  exact ⟨cs, cs', into, back.symm, rfl, standard.overrides_eq (into.perm back.symm) resolved',
    standard.leads_along chosen⟩

theorem namedBelow_perm (moved : assignment.Perm other) (path : Path) :
    (t.namedBelow parameters path assignment).Perm (t.namedBelow parameters path other) :=
  (Mapping.keys_perm moved).filterMap _

/-- The overrides of an assignment and of the same assignment in another order are read alike. -/
theorem StandardOf.readsLike {evaluator : Evaluator} (unordered : evaluator.Unordered)
    (standard : StandardOf parameters t declared) (unique : (Mapping.keys assignment).Nodup)
    (moved : assignment.Perm other) (free : t.Rearrangeable parameters assignment)
    {overrides : Tree} (accepted : t.overrides assignment = .ok overrides) :
    ∃ overrides', t.overrides other = .ok overrides' ∧
      overrides.ReadsLike evaluator False overrides' := by
  obtain ⟨cs, cs', into, choices, rfl, accepted', leads⟩ := standard.rearranged unique moved accepted
  have swappable := free _ accepted
  simp only [← leads] at swappable
  have here : parameters.outside? [] = some parameters := rfl
  have like := Tree.readsLike_below unordered standard.distinct into choices swappable standard.plain here
  exact ⟨_, accepted', like.view, like.node, False.elim⟩

/-- The same keys may trade places in the overrides of the assignment in another order. -/
theorem StandardOf.rearrangeable (standard : StandardOf parameters t declared)
    (unique : (Mapping.keys assignment).Nodup) (moved : assignment.Perm other)
    (free : t.Rearrangeable parameters assignment) : t.Rearrangeable parameters other := by
  intro overrides' accepted'
  have unique' := (Mapping.keys_perm moved).nodup_iff.mp unique
  obtain ⟨_, _, _, _, _, accepted, _⟩ := standard.rearranged unique' moved.symm accepted'
  obtain ⟨_, again, like⟩ :=
    standard.readsLike Evaluator.unordered_refusing unique moved free accepted
  obtain rfl := Except.ok.inj (accepted'.symm.trans again)
  exact (free _ accepted).of_view like.view fun path key member =>
    (namedBelow_perm moved path).mem_iff.mpr member

end Rearranged

end AliasTable

namespace Session

open Outcome

/-- How a session comes about. -/
theorem create_eq_ok {base sweep : Tree} {s : Session} (created : create base sweep = .ok s) :
    s.metadata.base = base ∧
      ∃ standard, AliasTable.ofSweep sweep = .ok (s.metadata.aliases, standard) := by
  obtain ⟨⟨aliases, standard⟩, standardized, created⟩ := bind_eq_ok.mp created
  have whole : AliasTable.ofSweep sweep = .ok (aliases, standard) := by
    cases outcome : AliasTable.ofSweep sweep with
    | error stopped => rw [outcome] at standardized; cases standardized
    | ok result =>
      rw [outcome] at standardized
      exact congrArg _ (Except.ok.inj standardized)
  dsimp only at created
  split at created
  · obtain rfl := Except.ok.inj created
    exact ⟨rfl, standard, whole⟩
  · cases created

variable {evaluator : Evaluator} {parameters : Tree} {declared assignment other : Mapping Tree}
  {s : Session}

theorem configure_follows (unordered : evaluator.Unordered)
    (standard : AliasTable.StandardOf parameters s.metadata.aliases declared)
    (unique : (Mapping.keys assignment).Nodup) (moved : assignment.Perm other)
    (free : s.metadata.aliases.Rearrangeable parameters assignment) :
    (s.configure evaluator assignment).Follows Tree.SameView (s.configure evaluator other) := by
  have overridden : (s.metadata.aliases.overrides assignment).Follows
      (Tree.ReadsLike evaluator False) (s.metadata.aliases.overrides other) :=
    fun _ accepted => standard.readsLike unordered unique moved free accepted
  exact overridden.bind fun _ _ like => like.merge s.metadata.base

/-- The order of an assignment does not matter where the keys that lead to assigned axes may trade
places: either no order of it has a configuration, or all have the same up to the order of keys. -/
theorem configure_perm (evaluator : Evaluator) (unordered : evaluator.Unordered)
    (base sweep parameters : Tree) (s : Session) (distinct : sweep.Distinct)
    (given : sweep.field? parametersKey = some parameters)
    (clear : parameters.OutsideKeys AxisKey.EndsClear) (created : create base sweep = .ok s)
    (assignment other : Mapping Tree) (unique : (Mapping.keys assignment).Nodup)
    (moved : assignment.Perm other) (free : s.metadata.aliases.Rearrangeable parameters assignment) :
    (s.configure evaluator assignment).toOption.map Tree.view
      = (s.configure evaluator other).toOption.map Tree.view := by
  obtain ⟨-, _, standardized⟩ := create_eq_ok created
  obtain ⟨declared, -, standard⟩ := AliasTable.standardOf_ofSweep distinct given clear standardized
  have unique' := (Mapping.keys_perm moved).nodup_iff.mp unique
  exact map_view_eq (configure_follows unordered standard unique moved free)
    (configure_follows unordered standard unique' moved.symm
      (standard.rearrangeable unique moved free))

section Rates

open AliasTable

theorem unordered_fieldEvaluator : fieldEvaluator.Unordered := by
  intro call t u same
  have values := Tree.field?_of_view same call.expression
  have looked : ∀ w : Tree, ((w.field? call.expression).getD .null).view
      = ((w.field? call.expression).map Tree.view).getD (Tree.view .null) :=
    fun w => (Option.getD_map ..).symm
  exact .ok ((looked t).trans (values ▸ (looked u).symm))

/-- A call on the root. -/
def lrOfRoot : Tree :=
  .mapping [("dy__eval", .str "lr")]

/-- Two axes, of which the second may ask for the value of the first, and a call. -/
def ratesParameters : Tree :=
  .mapping [("lr", .mapping [("sweep", .bool true), ("values", .list [.int 1])]),
    ("decay", .mapping [("sweep", .bool true), ("values", .list [.int 2, lrOfRoot])]),
    ("floor", lrOfRoot)]

def ratesSweep : Tree :=
  .mapping [("method", .str "grid"), ("parameters", ratesParameters)]

def ratesBase : Tree :=
  .mapping [("lr", .int 0), ("decay", .int 0), ("floor", .int 0)]

def ratesTable : AliasTable where
  keys := ⟨[("decay", "decay"), ("lr", "lr")]⟩
  remainder := .mapping [("floor", lrOfRoot)]

def ratesSession : Session where
  metadata := ⟨ratesBase, ratesTable⟩
  specification := some {
    method := .grid
    parameters := [("lr", .mapping [("values", .list [.int 1])]),
      ("decay", .mapping [("values", .list [.int 2, lrOfRoot])])] }

theorem rates_created : create ratesBase ratesSweep = .ok ratesSession := by
  with_unfolding_all rfl

def lrFirst (decay : Tree) : Mapping Tree :=
  [("lr", .int 1), ("decay", decay)]

def decayFirst (decay : Tree) : Mapping Tree :=
  [("decay", decay), ("lr", .int 1)]

/-- What the axes leave of the parameters comes last. -/
theorem overrides_rates (decay : Tree) :
    ratesTable.overrides (lrFirst decay) = .ok (.mapping (lrFirst decay ++ [("floor", lrOfRoot)])) ∧
      ratesTable.overrides (decayFirst decay)
        = .ok (.mapping (decayFirst decay ++ [("floor", lrOfRoot)])) := by
  have first : ratesTable.resolve (lrFirst decay)
      = .ok [(⟨"lr"⟩, .int 1), (⟨"decay"⟩, decay)] := rfl
  have second : ratesTable.resolve (decayFirst decay)
      = .ok [(⟨"decay"⟩, decay), (⟨"lr"⟩, .int 1)] := rfl
  have lr : (AxisKey.mk "lr").tokens = ["lr"] := by decide
  have decays : (AxisKey.mk "decay").tokens = ["decay"] := by decide
  unfold AliasTable.overrides Tree.ofAxisValues
  rw [first, second]
  dsimp only [bind, Except.bind]
  constructor
  · rw [Tree.placeAll, lr]
    dsimp only [Mapping.place?]
    rw [Tree.placeAll, decays]
    rfl
  · rw [Tree.placeAll, decays]
    dsimp only [Mapping.place?]
    rw [Tree.placeAll, lr]
    rfl

theorem configure_lrFirst (decay merged : Tree)
    (merges : Tree.merge fieldEvaluator ratesBase
      (.mapping (lrFirst decay ++ [("floor", lrOfRoot)])) = .ok merged) :
    ratesSession.configure fieldEvaluator (lrFirst decay) = .ok merged :=
  bind_eq_ok.mpr ⟨_, (overrides_rates decay).1, merges⟩

theorem configure_decayFirst (decay merged : Tree)
    (merges : Tree.merge fieldEvaluator ratesBase
      (.mapping (decayFirst decay ++ [("floor", lrOfRoot)])) = .ok merged) :
    ratesSession.configure fieldEvaluator (decayFirst decay) = .ok merged :=
  bind_eq_ok.mpr ⟨_, (overrides_rates decay).2, merges⟩

/-- A call that is chosen for the second axis finds the value of the first in the root, or what was
there before, as the assignment lists them. -/
theorem configure_order_shows :
    fieldEvaluator.Unordered ∧ ratesSweep.Distinct ∧
      create ratesBase ratesSweep = .ok ratesSession ∧
      (Mapping.keys (lrFirst lrOfRoot)).Nodup ∧ (lrFirst lrOfRoot).Perm (decayFirst lrOfRoot) ∧
      (ratesSession.configure fieldEvaluator (lrFirst lrOfRoot)).toOption.map Tree.view
        ≠ (ratesSession.configure fieldEvaluator (decayFirst lrOfRoot)).toOption.map Tree.view := by
  refine ⟨unordered_fieldEvaluator, by decide, rates_created, by decide, .swap .., ?_⟩
  have first := configure_lrFirst lrOfRoot
    (.mapping [("lr", .int 1), ("decay", .int 1), ("floor", .int 1)]) (by with_unfolding_all rfl)
  have second := configure_decayFirst lrOfRoot
    (.mapping [("lr", .int 1), ("decay", .int 0), ("floor", .int 1)]) (by with_unfolding_all rfl)
  rw [first, second]
  intro same
  have values := Tree.field?_of_view (Option.some.inj same) "decay"
  have leaf : View.leaf (.int 1) = View.leaf (.int 0) := Option.some.inj values
  cases leaf

theorem tokenBehind?_singleton {path : Path} {step : Step} {key : String}
    (behind : Choices.tokenBehind? path [step] = some key) : path = [] ∧ key = step.token := by
  unfold Choices.tokenBehind? at behind
  split at behind
  · cases path with
    | nil => exact ⟨rfl, (Option.some.inj behind).symm⟩
    | cons first rest => simp at behind
  · cases behind

/-- Only the keys of the axes lead to choices, and only at the root. -/
theorem rates_named {path : Path} {decay : Tree} {key : String}
    (member : key ∈ ratesTable.namedBelow ratesParameters path (lrFirst decay)) :
    path = [] ∧ (key = "lr" ∨ key = "decay") := by
  obtain ⟨name, listed, behind⟩ := List.mem_filterMap.mp member
  have names : Mapping.keys (lrFirst decay) = ["lr", "decay"] := rfl
  have lr : ratesTable.axisNamed? ratesParameters "lr" = some [.key "lr"] := rfl
  have decays : ratesTable.axisNamed? ratesParameters "decay" = some [.key "decay"] := rfl
  rw [names, List.mem_pair] at listed
  rcases listed with rfl | rfl
  · rw [lr] at behind
    exact (tokenBehind?_singleton behind).imp_right .inl
  · rw [decays] at behind
    exact (tokenBehind?_singleton behind).imp_right .inr

/-- The axes may trade places when no call is chosen: the call beside them comes last. -/
theorem rates_rearrangeable : ratesTable.Rearrangeable ratesParameters (lrFirst (.int 2)) := by
  intro overrides accepted path d entries found plain here k first l second other
  obtain ⟨rfl, key⟩ := rates_named first
  obtain ⟨-, key'⟩ := rates_named second
  obtain rfl := Except.ok.inj ((overrides_rates (.int 2)).1.symm.trans accepted)
  obtain rfl := Tree.mapping.inj (Option.some.inj here)
  refine ⟨?_, nofun, ?_, ?_⟩
  · rcases key with rfl | rfl <;> rcases key' with rfl | rfl
    · exact absurd rfl other
    · decide
    · decide
    · exact absurd rfl other
  · intro _ _ _ t value
    rcases key with rfl | rfl <;> obtain rfl := Option.some.inj value <;> decide
  · rintro rfl
    exact absurd key (by decide)

/-- With a plain value for the second axis both orders yield one configuration. -/
theorem configure_rates : ∃ merged,
    ratesSession.configure fieldEvaluator (lrFirst (.int 2)) = .ok merged ∧
      (ratesSession.configure fieldEvaluator (decayFirst (.int 2))).toOption.map Tree.view
        = some merged.view := by
  have first := configure_lrFirst (.int 2)
    (.mapping [("lr", .int 1), ("decay", .int 2), ("floor", .int 1)]) (by with_unfolding_all rfl)
  refine ⟨_, first, ?_⟩
  rw [← configure_perm fieldEvaluator unordered_fieldEvaluator ratesBase ratesSweep ratesParameters
    ratesSession (by decide) rfl (by decide) rates_created (lrFirst (.int 2)) (decayFirst (.int 2))
    (by decide) (.swap ..) rates_rearrangeable, first]
  rfl

end Rates

end Session

end ConfigSweep
