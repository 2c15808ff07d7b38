import ConfigSweep.Proofs.Idempotence

/-!
# Scripts of literals

A script whose instructions carry literals or remove items is a fold over the items of its list:
each instruction deletes, replaces or inserts at an index into the list as the earlier ones left
it, counted from the back when it is negative. The first index that does not fit ends the run.
-/

namespace ConfigSweep

/-- An instruction that needs neither a call nor a payload. -/
inductive LiteralEdit where
  | insert (index : Int) (value : Tree)
  | overwrite (index : Int) (value : Tree)
  | remove (index : Int)

namespace LiteralEdit

/-- The instruction as part of a script. -/
def edit : LiteralEdit → Edit
  | .insert index value => .insert index (some (.literal value))
  | .overwrite index value => .overwrite index (some (.literal value))
  | .remove index => .remove index

def index : LiteralEdit → Int
  | .insert index _ => index
  | .overwrite index _ => index
  | .remove index => index

/-- The index points at an item of a list of `length` items or, for an insertion, at its end,
which -1 stands for too. -/
def Fits (length : Nat) : LiteralEdit → Prop
  | .insert index _ => index = -1 ∨ (-length ≤ index ∧ index ≤ length)
  | .overwrite index _ => -length ≤ index ∧ index < length
  | .remove index => -length ≤ index ∧ index < length

instance (length : Nat) : (edit : LiteralEdit) → Decidable (edit.Fits length)
  | .insert index _ =>
    inferInstanceAs (Decidable (index = -1 ∨ (-(length : Int) ≤ index ∧ index ≤ length)))
  | .overwrite index _ => inferInstanceAs (Decidable (-(length : Int) ≤ index ∧ index < length))
  | .remove index => inferInstanceAs (Decidable (-(length : Int) ≤ index ∧ index < length))

/-- What an index stands for in a list of `length` items, counted from the front. -/
def place (length : Nat) (index : Int) : Nat :=
  (if 0 ≤ index then index else length + index).toNat

/-- The items after the instruction, whose index fits. -/
def applyTo (items : List Tree) : LiteralEdit → List Tree
  | .insert index value =>
    if index = -1 then items ++ [value] else items.insertIdx (place items.length index) value
  | .overwrite index value => items.set (place items.length index) value
  | .remove index => items.eraseIdx (place items.length index)

/-- The items after all instructions. -/
def run (edits : List LiteralEdit) (items : List Tree) : List Tree :=
  edits.foldl applyTo items

/-- Each index fits the list as the instructions before it left it. -/
def AllFit : List LiteralEdit → List Tree → Prop
  | [], _ => True
  | edit :: rest, items => edit.Fits items.length ∧ AllFit rest (edit.applyTo items)

instance decidableAllFit : (edits : List LiteralEdit) → (items : List Tree) →
    Decidable (AllFit edits items)
  | [], _ => inferInstanceAs (Decidable True)
  | edit :: rest, items =>
    have := decidableAllFit rest (edit.applyTo items)
    inferInstanceAs (Decidable (edit.Fits items.length ∧ AllFit rest (edit.applyTo items)))

/-- A script has a first index that does not fit, unless all fit. -/
theorem exists_first_misfit {edits : List LiteralEdit} {items : List Tree}
    (misfit : ¬ AllFit edits items) :
    ∃ before edit after, edits = before ++ edit :: after ∧ AllFit before items ∧
      ¬ edit.Fits (run before items).length := by
  induction edits generalizing items with
  | nil => exact absurd trivial misfit
  | cons edit rest ih =>
    by_cases fits : edit.Fits items.length
    · obtain ⟨before, first, after, rfl, allFit, bad⟩ := ih fun later => misfit ⟨fits, later⟩
      exact ⟨edit :: before, first, after, rfl, ⟨fits, allFit⟩, bad⟩
    · exact ⟨[], edit, rest, rfl, trivial, fits⟩

end LiteralEdit

namespace Position

open LiteralEdit (place)

theorem counted_eq (requested : Int) {length greatest : Nat} (bound : length ≤ greatest + 1) :
    counted requested length greatest =
      if -length ≤ requested ∧ requested ≤ greatest then .ok (place length requested)
      else fail (.indexOutOfRange requested length) := by
  unfold counted place
  dsimp only
  by_cases front : 0 ≤ requested
  · simp only [if_pos front, Option.filter_some, decide_eq_true_eq]
    by_cases within : requested ≤ greatest
    · rw [if_pos (by omega), if_pos (by omega)]
    · rw [if_neg (by omega), if_neg (by omega)]
  · simp only [if_neg front]
    by_cases within : requested.natAbs ≤ length
    · have inside : length - requested.natAbs ≤ greatest := by omega
      have same : length - requested.natAbs = (length + requested).toNat := by omega
      rw [if_pos within, Option.filter_some, if_pos (decide_eq_true inside), if_pos (by omega), same]
    · rw [if_neg within, Option.filter_none, if_neg (by omega)]

theorem ofItem_eq (requested : Int) (length : Nat) :
    ofItem requested length =
      if -length ≤ requested ∧ requested < length then .ok (place length requested)
      else fail (.indexOutOfRange requested length) := by
  cases length with
  | zero => rw [if_neg (by omega)]; rfl
  | succ last =>
    rw [ofItem, counted_eq requested (Nat.le_refl _)]
    refine if_congr ?_ rfl rfl
    omega

theorem forInsertion_eq (requested : Int) (length : Nat) :
    forInsertion requested length =
      if requested = -1 then .ok length
      else if -length ≤ requested ∧ requested ≤ length then .ok (place length requested)
      else fail (.indexOutOfRange requested length) := by
  rw [forInsertion, counted_eq requested (Nat.le_succ length)]

end Position

namespace Merge

open LiteralEdit

section Steps

variable (evaluator : Evaluator) (mergePayload : PayloadMerge) {focus : Focus} {root : Tree}
  {items : List Tree}

/-- One instruction writes the changed items or fails for its index. -/
theorem apply_literal (step : LiteralEdit) (focus : Focus) (items : List Tree) (root : Tree) :
    step.edit.apply evaluator mergePayload focus items root =
      if step.Fits items.length then focus.write (.list (step.applyTo items)) root
      else fail (.indexOutOfRange step.index items.length) := by
  cases step with
  | insert index value =>
    simp only [edit, Edit.apply, Position.forInsertion_eq, Fits, applyTo, LiteralEdit.index]
    by_cases last : index = -1
    · simp [last, EditValue.compute, bind, Except.bind]
    · by_cases fits : -(items.length : Int) ≤ index ∧ index ≤ items.length
      · simp [last, fits, EditValue.compute, bind, Except.bind]
      · simp [last, fits, fail, bind, Except.bind]
  | overwrite index value =>
    simp only [edit, Edit.apply, Position.ofItem_eq, Fits, applyTo, LiteralEdit.index]
    by_cases fits : -(items.length : Int) ≤ index ∧ index < items.length
    · simp [fits, EditValue.compute, bind, Except.bind]
    · simp [fits, fail, bind, Except.bind]
  | remove index =>
    simp only [edit, Edit.apply, Position.ofItem_eq, Fits, applyTo, LiteralEdit.index]
    by_cases fits : -(items.length : Int) ≤ index ∧ index < items.length
    · simp [fits, bind, Except.bind]
    · simp [fits, fail, bind, Except.bind]

theorem items_of_list (there : root.get? focus.path = some (.list items)) :
    focus.items root = .ok items :=
  bind_eq_ok.mpr ⟨.list items, Focus.read_eq_ok.mpr there, rfl⟩

theorem run_cons_literal (there : root.get? focus.path = some (.list items)) (step : LiteralEdit)
    (rest : Script) :
    Script.run evaluator mergePayload focus (step.edit :: rest) root =
      if step.Fits items.length then
        focus.write (.list (step.applyTo items)) root >>= Script.run evaluator mergePayload focus rest
      else fail (.indexOutOfRange step.index items.length) := by
  rw [Script.run, items_of_list there]
  dsimp only [bind, Except.bind]
  rw [apply_literal]
  by_cases fits : step.Fits items.length
  · rw [if_pos fits, if_pos fits]
  · rw [if_neg fits, if_neg fits]
    rfl

/-- Instructions whose indices fit leave the folded items for what follows them. -/
theorem run_append_literals {edits : List LiteralEdit} (fit : AllFit edits items)
    (there : root.get? focus.path = some (.list items)) :
    ∃ r, Tree.replace? (.list (LiteralEdit.run edits items)) focus.path root = some r ∧
      ∀ rest, Script.run evaluator mergePayload focus (edits.map edit ++ rest) root =
        Script.run evaluator mergePayload focus rest r := by
  induction edits generalizing items root with
  | nil => exact ⟨root, Tree.replace?_self there, fun _ => rfl⟩
  | cons step rest ih =>
    obtain ⟨fits, later⟩ := fit
    obtain ⟨changed, writes⟩ := Tree.exists_replace? there (.list (step.applyTo items))
    obtain ⟨r, folded, runs⟩ := ih later (Tree.get?_replace? writes)
    refine ⟨r, (Tree.replace?_replace? writes _).symm.trans folded, fun more => ?_⟩
    rw [List.map_cons, List.cons_append, run_cons_literal evaluator mergePayload there,
      if_pos fits, Focus.write_eq_ok.mpr writes]
    exact runs more

end Steps

/-- A script of literals succeeds if and only if each index fits the list as the earlier
instructions left it. Then it leaves the items folded over its instructions; else it fails for the
first index that does not fit, which it shows as authored, with the length of the list then. -/
theorem node_literals (evaluator : Evaluator) (edits : List LiteralEdit)
    (payload : KeyedPatch Patch) (focus : Focus) (root : Tree) (items : List Tree)
    (there : root.get? focus.path = some (.list items)) :
    ((∃ r, node evaluator (.edits (edits.map edit) payload) focus root = .ok r) ↔
      AllFit edits items) ∧
    (AllFit edits items → ∃ r,
      Tree.replace? (.list (LiteralEdit.run edits items)) focus.path root = some r ∧
      node evaluator (.edits (edits.map edit) payload) focus root = .ok r) ∧
    (¬ AllFit edits items → ∃ before step after, edits = before ++ step :: after ∧
      AllFit before items ∧ ¬ step.Fits (LiteralEdit.run before items).length ∧
      node evaluator (.edits (edits.map edit) payload) focus root =
        .error ⟨.indexOutOfRange step.index (LiteralEdit.run before items).length,
          some ⟨focus.trail.dotted, (Patch.edits (edits.map edit) payload).toTree.pretty⟩⟩) := by
  have opens : openScript focus root = .ok root :=
    bind_eq_ok.mpr ⟨_, revealed_stays there rfl, rfl⟩
  have fitting : AllFit edits items → ∃ r,
      Tree.replace? (.list (LiteralEdit.run edits items)) focus.path root = some r ∧
      node evaluator (.edits (edits.map edit) payload) focus root = .ok r := by
    intro fit
    obtain ⟨r, folded, runs⟩ := run_append_literals evaluator (keyed evaluator payload) fit there
    have ran := List.append_nil (edits.map edit) ▸ runs []
    exact ⟨r, folded, settle_stays (Tree.get?_replace? folded) rfl
      (bind_eq_ok.mpr ⟨root, opens, ran⟩)⟩
  have failing : ¬ AllFit edits items → ∃ before step after, edits = before ++ step :: after ∧
      AllFit before items ∧ ¬ step.Fits (LiteralEdit.run before items).length ∧
      node evaluator (.edits (edits.map edit) payload) focus root =
        .error ⟨.indexOutOfRange step.index (LiteralEdit.run before items).length,
          some ⟨focus.trail.dotted, (Patch.edits (edits.map edit) payload).toTree.pretty⟩⟩ := by
    intro misfit
    obtain ⟨before, step, after, rfl, fit, bad⟩ := exists_first_misfit misfit
    refine ⟨before, step, after, rfl, fit, bad, ?_⟩
    obtain ⟨r, folded, runs⟩ := run_append_literals evaluator (keyed evaluator payload) fit there
    have ran := runs ((step :: after).map edit)
    rw [← List.map_append, List.map_cons,
      run_cons_literal evaluator _ (Tree.get?_replace? folded), if_neg bad] at ran
    rw [node, opens]
    dsimp only [bind, Except.bind]
    rw [ran]
    rfl
  refine ⟨⟨?_, fun fit => ?_⟩, fitting, failing⟩
  · rintro ⟨r, done⟩
    by_contra misfit
    obtain ⟨_, _, _, -, -, -, failed⟩ := failing misfit
    rw [done] at failed
    cases failed
  · obtain ⟨r, -, done⟩ := fitting fit
    exact ⟨r, done⟩

section Layers

/-- Appends an item, drops the first one and writes before and at the back of what is left. -/
def layerEdits : List LiteralEdit :=
  [.insert (-1) (.int 4), .remove (-4), .insert (-3) (.mapping []), .overwrite 3 .null]

/-- A script that meets an empty list with the least index there is. -/
def drainingEdits : List LiteralEdit :=
  [.remove (-3), .remove 1, .remove 0, .overwrite (-Word.signedBound) .null, .insert 0 .null]

def layersRoot : Tree :=
  .mapping [("width", .int 7), ("layers", .list [.int 1, .int 2, .int 3])]

def layersEdited : Tree :=
  .mapping [("width", .int 7), ("layers", .list [.mapping [], .int 2, .int 3, .null])]

theorem node_literals_layers :
    node .refusing (.edits (layerEdits.map edit) {}) (Focus.root.atKey "layers") layersRoot =
      .ok layersEdited ∧
    ¬ ∃ r, node .refusing (.edits (drainingEdits.map edit) {}) (Focus.root.atKey "layers")
      layersRoot = .ok r := by
  have there : layersRoot.get? [.key "layers"] = some (.list [.int 1, .int 2, .int 3]) := rfl
  have layers := node_literals .refusing layerEdits {} (Focus.root.atKey "layers") layersRoot _ there
  have drained := node_literals .refusing drainingEdits {} (Focus.root.atKey "layers") layersRoot _
    there
  constructor
  · obtain ⟨r, folded, done⟩ := layers.2.1 (by decide)
    obtain rfl : layersEdited = r := Option.some.inj folded
    exact done
  · have misfit : ¬ AllFit drainingEdits [.int 1, .int 2, .int 3] := by decide
    exact fun done => misfit (drained.1.mp done)

end Layers

end Merge

end ConfigSweep
