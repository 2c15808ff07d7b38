import ConfigSweep.Merge
import ConfigSweep.Proofs.Outcome

/-!
# Failures without a place

A failure gets its place where a walk step ends, and from there on keeps it. Everything that the
steps are made of fails without a place: reading scripts and calls, opening nodes, writing to them,
turning disguised lists into lists, and checking for reserved keys.
-/

namespace ConfigSweep

/-- A failure has no place yet. -/
def Outcome.Bare {α : Type} (outcome : Outcome α) : Prop :=
  ∀ f, outcome = .error f → f.place = none

/-- Calls fail without a place. -/
def Evaluator.Bare (evaluator : Evaluator) : Prop :=
  ∀ call argument, (evaluator call argument).Bare

namespace Outcome.Bare

variable {α β : Type}

theorem ok (a : α) : Bare (.ok a) :=
  nofun

theorem error {f : Failure} (unplaced : f.place = none) : Bare (.error f : Outcome α) :=
  fun _ same => Except.error.inj same ▸ unplaced

theorem fail (cause : Cause) : Bare (ConfigSweep.fail cause : Outcome α) :=
  error rfl

theorem bind {first : Outcome α} {next : α → Outcome β} (bare : first.Bare)
    (each : ∀ a, (next a).Bare) : (first >>= next).Bare := by
  intro f failed
  rcases bind_eq_error.mp failed with early | ⟨a, -, late⟩
  · exact bare f early
  · exact each a f late

theorem map {outcome : Outcome α} (bare : outcome.Bare) (g : α → β) : Bare (g <$> outcome) := by
  cases outcome with
  | error own => exact error (bare own rfl)
  | ok a => exact ok (g a)

theorem foldlM {step : β → α → Outcome β} (each : ∀ b a, (step b a).Bare) (as : List α)
    (start : β) : Bare (as.foldlM step start) := by
  induction as generalizing start with
  | nil => exact ok start
  | cons a rest ih =>
    rw [List.foldlM_cons]
    exact bind (each start a) ih

theorem mapM {step : α → Outcome β} (each : ∀ a, (step a).Bare) (as : List α) :
    Bare (as.mapM step) := by
  induction as with
  | nil => exact ok []
  | cons a rest ih =>
    rw [List.mapM_cons]
    exact bind (each a) fun b => bind ih fun bs => ok (b :: bs)

theorem lift {σ τ : Type} {stops : Except (Stopped σ) σ} (bare : Bare (Stopped.outcome stops))
    (whole : σ → τ) : Bare (Stopped.outcome (Stopped.lift whole stops)) := by
  cases stops with
  | error stopped => exact error (bare stopped.failure rfl)
  | ok s => exact ok (whole s)

end Outcome.Bare

open Outcome

section Lists

theorem SparseList.checkGapless_bare {α : Type} (s : SparseList α) : s.checkGapless.Bare := by
  unfold checkGapless
  split
  · split
    · exact .fail _
    · exact .ok _
  · exact .ok _

namespace Tree

theorem reveal_bare (t : Tree) : (Stopped.outcome t.reveal).Bare := by
  cases t with
  | mapping m =>
    rw [reveal]
    split
    · dsimp only
      split
      · exact .fail _
      · split
        · exact .ok _
        · next failure lists =>
          have bare : (SparseList.ofEntries m).toList.Bare :=
            .bind (SparseList.checkGapless_bare _) fun _ => .ok _
          exact .error (bare failure lists)
    · exact .ok _
  | _ => exact .ok _

mutual

theorem revealAll_bare : ∀ t : Tree, (Stopped.outcome t.revealAll).Bare
  | .list items => .lift (revealItems_bare items) _
  | .mapping entries => by
    have below := revealEntries_bare entries
    rw [revealAll]
    cases shown : revealEntries entries with
    | error stopped =>
      rw [shown] at below
      exact .error (below stopped.failure rfl)
    | ok m => exact reveal_bare (.mapping m)
  | .null | .bool _ | .int _ | .float _ | .str _ => .ok _

theorem revealItems_bare : ∀ items : List Tree, (Stopped.outcome (revealItems items)).Bare
  | [] => .ok _
  | t :: ts => by
    have first := revealAll_bare t
    rw [revealItems]
    cases shown : revealAll t with
    | error stopped =>
      rw [shown] at first
      exact .error (first stopped.failure rfl)
    | ok u => exact .lift (revealItems_bare ts) _

theorem revealEntries_bare : ∀ entries : List (String × Tree),
    (Stopped.outcome (revealEntries entries)).Bare
  | [] => .ok _
  | (key, t) :: rest => by
    have first := revealAll_bare t
    rw [revealEntries]
    cases shown : revealAll t with
    | error stopped =>
      rw [shown] at first
      exact .error (first stopped.failure rfl)
    | ok u => exact .lift (revealEntries_bare rest) _

end

end Tree

end Lists

section Reading

theorem Call.ofTree_bare (t : Tree) : (Call.ofTree t).Bare := by
  unfold ofTree
  split
  · exact .ok _
  · split
    · exact .ok _
    · exact .fail _
  · exact .fail _

theorem EditValue.ofTree_bare (t : Tree) : (EditValue.ofTree t).Bare := by
  unfold ofTree
  split
  · split
    · exact .ok _
    · split
      · exact .fail _
      · exact .map (Call.ofTree_bare _) _
  · exact .ok _

namespace Edit

theorem positionAndValue_bare (operation : String) (t : Tree) :
    (positionAndValue operation t).Bare := by
  unfold positionAndValue
  split
  · split
    · exact .fail _
    · exact .bind (EditValue.ofTree_bare _) fun _ => .ok _
  · exact .fail _
  · split
    · exact .fail _
    · exact .ok _

theorem ofOperation_bare (operation : String) (argument : Tree) :
    (ofOperation operation argument).Bare := by
  unfold ofOperation
  split
  · exact .bind (positionAndValue_bare _ _) fun _ => .ok _
  · split
    · exact .bind (positionAndValue_bare _ _) fun _ => .ok _
    · split
      · split
        · exact .fail _
        · exact .ok _
      · exact .fail _

theorem ofTree_bare (t : Tree) : (Edit.ofTree t).Bare := by
  unfold ofTree
  split
  · exact .bind (Tree.revealAll_bare _) fun _ => ofOperation_bare _ _
  · exact .fail _
  · exact .fail _

end Edit

namespace Script

theorem inOrder_bare (entries : Mapping Tree) : (inOrder entries).Bare := by
  refine .bind (.foldlM (fun s e => ?_) _ _) fun s => ?_
  · split
    · exact .ok _
    · exact .fail _
  · split
    · exact .fail _
    · exact .ok _

theorem ofTree_bare (t : Tree) : (Script.ofTree t).Bare := by
  unfold ofTree
  split
  · exact .mapM Edit.ofTree_bare _
  · exact .bind (inOrder_bare _) fun _ => .mapM Edit.ofTree_bare _
  · exact .fail _

end Script

end Reading

section Merging

namespace Position

theorem counted_bare (requested : Int) (length greatest : Nat) :
    (counted requested length greatest).Bare := by
  unfold counted
  dsimp only
  split
  · exact .ok _
  · exact .fail _

theorem forInsertion_bare (requested : Int) (length : Nat) :
    (forInsertion requested length).Bare := by
  unfold forInsertion
  split
  · exact .ok _
  · exact counted_bare _ _ _

theorem ofItem_bare (requested : Int) (length : Nat) : (ofItem requested length).Bare := by
  cases length with
  | zero => exact .fail _
  | succ last => exact counted_bare _ _ _

end Position

namespace Focus

variable (focus : Focus) (root : Tree)

theorem read_bare : (focus.read root).Bare := by
  unfold read
  split
  · exact .ok _
  · exact .fail _

theorem write_bare (value : Tree) : (focus.write value root).Bare := by
  unfold write
  split
  · exact .ok _
  · exact .fail _

theorem revealed_bare : (focus.revealed root).Bare :=
  .bind (focus.read_bare root) fun t => .bind t.reveal_bare fun shown =>
    .bind (focus.write_bare root shown) fun _ => .ok _

theorem reveal_bare : (focus.reveal root).Bare :=
  .bind (focus.revealed_bare root) fun _ => .ok _

theorem items_bare : (focus.items root).Bare := by
  refine .bind (focus.read_bare root) fun t => ?_
  split
  · exact .ok _
  · exact .fail _

end Focus

namespace Merge

variable (focus : Focus) (root : Tree)

theorem openMapping_bare (noEntries : Bool) : (openMapping focus noEntries root).Bare := by
  refine .bind (focus.revealed_bare root) fun shown => ?_
  dsimp only
  split
  · exact .ok _
  · exact focus.write_bare _ _
  · split
    · exact .ok _
    · exact .fail _

theorem ensureKey_bare (key : String) : (ensureKey focus key root).Bare := by
  refine .bind (focus.read_bare root) fun t => ?_
  split
  · split
    · exact .ok _
    · exact focus.write_bare _ _
  · exact .fail _

theorem openList_bare (length : Nat) : (openList focus length root).Bare := by
  refine .bind (focus.revealed_bare root) fun shown => ?_
  dsimp only
  split
  · split
    · exact .ok _
    · exact .fail _
  · exact .fail _
  · exact focus.write_bare _ _

theorem openSlots_bare (slots : SparseList Patch) : (openSlots focus slots root).Bare := by
  refine .bind (focus.revealed_bare root) fun shown => ?_
  dsimp only
  split
  · exact .ok _
  · exact .fail _
  · exact .bind slots.checkGapless_bare fun _ => .bind (focus.write_bare _ _) fun _ => .ok _

theorem openScript_bare : (openScript focus root).Bare := by
  refine .bind (focus.revealed_bare root) fun shown => ?_
  dsimp only
  split
  · exact .ok _
  · exact .fail _

end Merge

namespace Tree

mutual

theorem checkPlainAt_bare : ∀ (t : Tree) (trail : Trail), (t.checkPlainAt trail).Bare
  | .list items, trail => checkPlainItems_bare items 0 trail
  | .mapping entries, trail => checkPlainEntries_bare entries trail
  | .null, _ | .bool _, _ | .int _, _ | .float _, _ | .str _, _ => .ok ()

theorem checkPlainItems_bare : ∀ (items : List Tree) (position : Nat) (trail : Trail),
    (checkPlainItems items position trail).Bare
  | [], _, _ => .ok ()
  | t :: ts, position, trail =>
    .bind (checkPlainAt_bare t _) fun _ => checkPlainItems_bare ts (position + 1) trail

theorem checkPlainEntries_bare : ∀ (entries : List (String × Tree)) (trail : Trail),
    (checkPlainEntries entries trail).Bare
  | [], _ => .ok ()
  | (key, t) :: rest, trail => by
    rw [checkPlainEntries]
    split
    · exact .fail _
    · exact .bind (checkPlainAt_bare t _) fun _ => checkPlainEntries_bare rest trail

end

end Tree

theorem EditValue.compute_bare {evaluator : Evaluator} (bare : evaluator.Bare) (root : Tree)
    (value : EditValue) : (value.compute evaluator root).Bare := by
  cases value with
  | literal v => exact .ok v
  | computed call => exact bare call root

end Merging

end ConfigSweep
