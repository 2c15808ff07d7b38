import ConfigSweep.Merge
import ConfigSweep.Proofs.IndexedPatch

/-!
# Merging indexed patches

A patch and its indexed form merge alike: they visit the same nodes in the same order and see the
same roots. Only the labels under which nodes are reported differ, and no success depends on them.
-/

namespace ConfigSweep

namespace Focus

/-- The foci lead to the same node. -/
def Same (focus other : Focus) : Prop :=
  other.path = focus.path

variable {focus other : Focus}

theorem Same.atKey (same : focus.Same other) (name : String) :
    (focus.atKey name).Same (other.atKey name) :=
  congrArg (· ++ [Step.key name]) same

theorem Same.atIndex (same : focus.Same other) (position : Nat) :
    (focus.atIndex position).Same (other.atIndex position) :=
  congrArg (· ++ [Step.index position]) same

theorem Same.under (same : focus.Same other) (label label' : String) :
    (focus.under label).Same (other.under label') :=
  same

theorem read_eq_ok {root t : Tree} : focus.read root = .ok t ↔ root.get? focus.path = some t := by
  unfold read
  cases root.get? focus.path <;> simp [fail]

theorem write_eq_ok {value root changed : Tree} :
    focus.write value root = .ok changed ↔ Tree.replace? value focus.path root = some changed := by
  unfold write
  cases Tree.replace? value focus.path root <;> simp [fail]

theorem Same.read (same : focus.Same other) {root t : Tree} (done : focus.read root = .ok t) :
    other.read root = .ok t := by
  rw [read_eq_ok] at done ⊢
  rw [same, done]

theorem Same.write (same : focus.Same other) {value root changed : Tree}
    (done : focus.write value root = .ok changed) : other.write value root = .ok changed := by
  rw [write_eq_ok] at done ⊢
  rw [same, done]

theorem Same.revealed (same : focus.Same other) {root : Tree} {shown : Tree × Tree}
    (done : focus.revealed root = .ok shown) : other.revealed root = .ok shown := by
  obtain ⟨t, read, done⟩ := bind_eq_ok.mp done
  obtain ⟨u, reveals, done⟩ := bind_eq_ok.mp done
  obtain ⟨changed, writes, done⟩ := bind_eq_ok.mp done
  unfold Focus.revealed
  rw [same.read read]
  dsimp only [bind, Except.bind]
  rw [reveals]
  dsimp only
  rw [same.write writes]
  exact done

theorem Same.reveal (same : focus.Same other) {root changed : Tree}
    (done : focus.reveal root = .ok changed) : other.reveal root = .ok changed := by
  obtain ⟨shown, reveals, done⟩ := bind_eq_ok.mp done
  exact bind_eq_ok.mpr ⟨shown, same.revealed reveals, done⟩

end Focus

namespace Merge

variable {evaluator : Evaluator} {focus other : Focus}

theorem settle_eq_ok {patch : Patch} {outcome : Outcome Tree} {r : Tree} :
    settle focus patch outcome = .ok r ↔ ∃ root, outcome = .ok root ∧ focus.reveal root = .ok r := by
  unfold settle
  rw [Patch.located_eq_ok]
  exact bind_eq_ok

section Opening

theorem openMapping_same (same : focus.Same other) {noEntries : Bool} {root opened : Tree}
    (done : openMapping focus noEntries root = .ok opened) :
    openMapping other noEntries root = .ok opened := by
  obtain ⟨⟨t, shown⟩, reveals, done⟩ := bind_eq_ok.mp done
  refine bind_eq_ok.mpr ⟨(t, shown), same.revealed reveals, ?_⟩
  dsimp only at done ⊢
  split at done
  · exact done
  · exact same.write done
  · exact done

theorem ensureKey_same (same : focus.Same other) {key : String} {root opened : Tree}
    (done : ensureKey focus key root = .ok opened) : ensureKey other key root = .ok opened := by
  obtain ⟨t, reads, done⟩ := bind_eq_ok.mp done
  refine bind_eq_ok.mpr ⟨t, same.read reads, ?_⟩
  split at done
  · split at done
    · next there => rw [if_pos there]; exact done
    · next absent => rw [if_neg absent]; exact same.write done
  · cases done

theorem openScript_same (same : focus.Same other) {root opened : Tree}
    (done : openScript focus root = .ok opened) : openScript other root = .ok opened := by
  obtain ⟨shown, reveals, done⟩ := bind_eq_ok.mp done
  exact bind_eq_ok.mpr ⟨shown, same.revealed reveals, done⟩

theorem openSlots_same (same : focus.Same other) {slots slots' : SparseList Patch}
    (size : slots'.size = slots.size) (gapless : slots.checkGapless = .ok () →
      slots'.checkGapless = .ok ()) {root : Tree} {opened : Nat × Tree}
    (done : openSlots focus slots root = .ok opened) : openSlots other slots' root = .ok opened := by
  obtain ⟨⟨t, shown⟩, reveals, done⟩ := bind_eq_ok.mp done
  refine bind_eq_ok.mpr ⟨(t, shown), same.revealed reveals, ?_⟩
  dsimp only at done ⊢
  split at done
  · exact done
  · cases done
  · obtain ⟨⟨⟩, checked, done⟩ := bind_eq_ok.mp done
    obtain ⟨changed, writes, done⟩ := bind_eq_ok.mp done
    refine bind_eq_ok.mpr ⟨(), gapless checked, bind_eq_ok.mpr ⟨changed, ?_, ?_⟩⟩
    · rw [size]
      exact same.write writes
    · rw [size]
      exact done

/-- A list is opened for its items like slots that are filled up to its length. -/
theorem openSlots_of_openList (same : focus.Same other) {slots : SparseList Patch}
    (gapless : slots.checkGapless = .ok ()) {root opened : Tree}
    (done : openList focus slots.size root = .ok opened) :
    openSlots other slots root = .ok (slots.size, opened) := by
  obtain ⟨⟨t, shown⟩, reveals, done⟩ := bind_eq_ok.mp done
  refine bind_eq_ok.mpr ⟨(t, shown), same.revealed reveals, ?_⟩
  dsimp only at done ⊢
  split at done
  · split at done
    · next long =>
      obtain rfl := Except.ok.inj done
      rw [long]
      rfl
    · cases done
  · cases done
  · exact bind_eq_ok.mpr ⟨(), gapless, bind_eq_ok.mpr ⟨opened, same.write done, rfl⟩⟩

end Opening

section Scripts

variable {payload payload' : PayloadMerge}

theorem items_same (same : focus.Same other) {root : Tree} {items : List Tree}
    (done : focus.items root = .ok items) : other.items root = .ok items := by
  obtain ⟨t, reads, isList⟩ := bind_eq_ok.mp done
  exact bind_eq_ok.mpr ⟨t, same.read reads, isList⟩

theorem apply_same
    (agree : ∀ {focus other : Focus}, focus.Same other → ∀ {root r : Tree},
      payload focus root = .ok r → payload' other root = .ok r)
    (same : focus.Same other) {edit : Edit} {items : List Tree} {root r : Tree}
    (done : edit.apply evaluator payload focus items root = .ok r) :
    edit.apply evaluator payload' other items root = .ok r := by
  cases edit with
  | remove requested =>
    obtain ⟨position, found, writes⟩ := bind_eq_ok.mp done
    exact bind_eq_ok.mpr ⟨position, found, same.write writes⟩
  | insert requested value =>
    obtain ⟨position, found, applies⟩ := bind_eq_ok.mp done
    refine bind_eq_ok.mpr ⟨position, found, ?_⟩
    cases value with
    | some value =>
      obtain ⟨computed, computes, writes⟩ := bind_eq_ok.mp applies
      exact bind_eq_ok.mpr ⟨computed, computes, same.write writes⟩
    | none =>
      obtain ⟨opened, writes, merges⟩ := bind_eq_ok.mp applies
      exact bind_eq_ok.mpr ⟨opened, same.write writes, agree (same.atIndex position) merges⟩
  | overwrite requested value =>
    obtain ⟨position, found, applies⟩ := bind_eq_ok.mp done
    refine bind_eq_ok.mpr ⟨position, found, ?_⟩
    cases value with
    | some value =>
      obtain ⟨computed, computes, writes⟩ := bind_eq_ok.mp applies
      exact bind_eq_ok.mpr ⟨computed, computes, same.write writes⟩
    | none => exact agree (same.atIndex position) applies

/-- A script runs alike with payload merges that agree. -/
theorem run_same
    (agree : ∀ {focus other : Focus}, focus.Same other → ∀ {root r : Tree},
      payload focus root = .ok r → payload' other root = .ok r)
    (same : focus.Same other) {script : Script} {root r : Tree}
    (done : script.run evaluator payload focus root = .ok r) :
    script.run evaluator payload' other root = .ok r := by
  induction script generalizing root with
  | nil => exact done
  | cons edit rest ih =>
    obtain ⟨items, reads, done⟩ := bind_eq_ok.mp done
    obtain ⟨edited, applies, later⟩ := bind_eq_ok.mp done
    exact bind_eq_ok.mpr ⟨items, items_same same reads,
      bind_eq_ok.mpr ⟨edited, apply_same agree same applies, ih later⟩⟩

end Scripts

section Nodes

theorem gapless_indexedItems (ps : List Patch) :
    (⟨Patch.indexedItems ps 0⟩ : SparseList Patch).checkGapless = .ok () := by
  have whole := SparseList.toList_slotsOf (ps.map Patch.indexed)
  rw [← Patch.indexedItems_eq] at whole
  obtain ⟨⟨⟩, checked, -⟩ := bind_eq_ok.mp whole
  exact checked

theorem size_indexedItems (ps : List Patch) :
    (⟨Patch.indexedItems ps 0⟩ : SparseList Patch).size = ps.length := by
  rw [Patch.indexedItems_eq]
  simp [SparseList.size, SparseList.slotsOf]

theorem gapless_indexedSparse {slots : SparseList Patch} (checked : slots.checkGapless = .ok ()) :
    (Patch.indexedSparse slots).checkGapless = .ok () := by
  rw [Patch.indexedSparse_eq, ← checked]
  exact SparseList.checkGapless_congr (by simp [SparseList.mapValues, Function.comp_def])

mutual

/-- What a patch merges to, its indexed form merges to. -/
theorem node_indexed : ∀ (p : Patch) {focus other : Focus}, focus.Same other → ∀ {root r : Tree},
    node evaluator p focus root = .ok r → node evaluator p.indexed other root = .ok r
  | .scalar value, focus, other, same, root, r, done => by
    obtain ⟨written, writes, reveals⟩ := settle_eq_ok.mp done
    exact settle_eq_ok.mpr ⟨written, same.write writes, same.reveal reveals⟩
  | .fromRoot call, focus, other, same, root, r, done => by
    obtain ⟨written, evaluates, reveals⟩ := settle_eq_ok.mp done
    obtain ⟨value, computes, writes⟩ := bind_eq_ok.mp evaluates
    exact settle_eq_ok.mpr ⟨written, bind_eq_ok.mpr ⟨value, computes, same.write writes⟩,
      same.reveal reveals⟩
  | .fromPrevious call, focus, other, same, root, r, done => by
    obtain ⟨written, evaluates, reveals⟩ := settle_eq_ok.mp done
    obtain ⟨previous, reads, evaluates⟩ := bind_eq_ok.mp evaluates
    obtain ⟨value, computes, writes⟩ := bind_eq_ok.mp evaluates
    exact settle_eq_ok.mpr ⟨written, bind_eq_ok.mpr ⟨previous, same.read reads,
      bind_eq_ok.mpr ⟨value, computes, same.write writes⟩⟩, same.reveal reveals⟩
  | .list patches, focus, other, same, root, r, done => by
    obtain ⟨merged, merges, reveals⟩ := settle_eq_ok.mp done
    obtain ⟨opened, opens, merges⟩ := bind_eq_ok.mp merges
    rw [← size_indexedItems patches] at opens
    have slots := openSlots_of_openList same (gapless_indexedItems patches) opens
    rw [size_indexedItems] at slots
    have inner := items_indexed patches same merges (Nat.le_of_eq (Nat.zero_add patches.length))
    exact settle_eq_ok.mpr ⟨merged, bind_eq_ok.mpr ⟨_, slots, inner⟩, same.reveal reveals⟩
  | .sparse slots, focus, other, same, root, r, done => by
    obtain ⟨merged, merges, reveals⟩ := settle_eq_ok.mp done
    obtain ⟨⟨length, opened⟩, opens, merges⟩ := bind_eq_ok.mp merges
    have size : (Patch.indexedSparse slots).size = slots.size := by
      rw [Patch.indexedSparse_eq]
      simp [SparseList.size, SparseList.mapValues]
    have opens' := openSlots_same same size gapless_indexedSparse opens
    exact settle_eq_ok.mpr ⟨merged, bind_eq_ok.mpr ⟨_, opens', sparse_indexed slots same merges⟩,
      same.reveal reveals⟩
  | .edits script payload, focus, other, same, root, r, done => by
    obtain ⟨merged, merges, reveals⟩ := settle_eq_ok.mp done
    obtain ⟨opened, opens, runs⟩ := bind_eq_ok.mp merges
    have runs' : script.run evaluator
        (fun focus root => keyed evaluator (Patch.indexedKeyed payload) focus root) other opened
          = .ok merged := by
      apply run_same ?_ same runs
      intro focus other same root r done
      exact keyed_indexed payload same done
    exact settle_eq_ok.mpr ⟨merged, bind_eq_ok.mpr ⟨opened, openScript_same same opens, runs'⟩,
      same.reveal reveals⟩
  | .keyed patch, focus, other, same, root, r, done => by
    obtain ⟨merged, merges, reveals⟩ := settle_eq_ok.mp done
    exact settle_eq_ok.mpr ⟨merged, keyed_indexed patch same merges, same.reveal reveals⟩

theorem items_indexed : ∀ (ps : List Patch) {position length : Nat} {focus other : Focus},
    focus.Same other → ∀ {root r : Tree}, items evaluator ps position focus root = .ok r →
      position + ps.length ≤ length →
        slots evaluator (Patch.indexedItems ps position) length other root = .ok r
  | [], _, _, _, _, _, _, _, done, _ => done
  | p :: ps, position, length, focus, other, same, root, r, done, within => by
    obtain ⟨merged, first, later⟩ := bind_eq_ok.mp done
    rw [List.length_cons] at within
    rw [Patch.indexedItems, slots, if_neg (by omega)]
    exact bind_eq_ok.mpr ⟨merged, node_indexed p (same.atIndex position) first,
      items_indexed ps same later (by omega)⟩

theorem sparse_indexed : ∀ (s : SparseList Patch) {length : Nat} {focus other : Focus},
    focus.Same other → ∀ {root r : Tree}, sparse evaluator s length focus root = .ok r →
      sparse evaluator (Patch.indexedSparse s) length other root = .ok r
  | ⟨patches⟩, _, _, _, same, _, _, done => slots_indexed patches same done

theorem slots_indexed : ∀ (patches : List (Nat × Patch)) {length : Nat} {focus other : Focus},
    focus.Same other → ∀ {root r : Tree}, slots evaluator patches length focus root = .ok r →
      slots evaluator (Patch.indexedSlots patches) length other root = .ok r
  | [], _, _, _, _, _, _, done => done
  | (position, p) :: rest, length, focus, other, same, root, r, done => by
    rw [slots] at done
    rw [Patch.indexedSlots, slots]
    split at done
    · cases done
    · next within =>
      obtain ⟨merged, first, later⟩ := bind_eq_ok.mp done
      rw [if_neg within]
      exact bind_eq_ok.mpr ⟨merged, node_indexed p (same.atIndex position) first,
        slots_indexed rest same later⟩

theorem keyed_indexed : ∀ (patch : KeyedPatch Patch) {focus other : Focus},
    focus.Same other → ∀ {root r : Tree}, keyed evaluator patch focus root = .ok r →
      keyed evaluator (Patch.indexedKeyed patch) other root = .ok r
  | ⟨entries, groups, upserts⟩, focus, other, same, root, r, done => by
    obtain ⟨opened, opens, done⟩ := bind_eq_ok.mp done
    obtain ⟨valued, first, done⟩ := bind_eq_ok.mp done
    obtain ⟨grouped, second, third⟩ := bind_eq_ok.mp done
    have empty : (Patch.indexedNamed entries).isEmpty = entries.isEmpty := by
      rw [Patch.indexedNamed_eq, List.isEmpty_map]
    rw [Patch.indexedKeyed, keyed, empty]
    exact bind_eq_ok.mpr ⟨opened, openMapping_same same opens, bind_eq_ok.mpr ⟨valued,
      values_indexed entries same first, bind_eq_ok.mpr ⟨grouped,
        revisits_indexed groups same second, ordered_indexed upserts same third⟩⟩⟩

theorem values_indexed : ∀ (entries : List (String × Patch)) {focus other : Focus},
    focus.Same other → ∀ {root r : Tree}, values evaluator entries focus root = .ok r →
      values evaluator (Patch.indexedNamed entries) other root = .ok r
  | [], _, _, _, _, _, done => done
  | (key, p) :: rest, focus, other, same, root, r, done => by
    obtain ⟨opened, opens, done⟩ := bind_eq_ok.mp done
    obtain ⟨merged, first, later⟩ := bind_eq_ok.mp done
    exact bind_eq_ok.mpr ⟨opened, ensureKey_same same opens, bind_eq_ok.mpr ⟨merged,
      node_indexed p (same.atKey key) first, values_indexed rest same later⟩⟩

theorem revisits_indexed : ∀ (groups : List (String × Patch)) {focus other : Focus},
    focus.Same other → ∀ {root r : Tree}, revisits evaluator groups focus root = .ok r →
      revisits evaluator (Patch.indexedNamed groups) other root = .ok r
  | [], _, _, _, _, _, done => done
  | (key, p) :: rest, focus, other, same, root, r, done => by
    obtain ⟨merged, first, later⟩ := bind_eq_ok.mp done
    exact bind_eq_ok.mpr ⟨merged, node_indexed p (same.under key key) first,
      revisits_indexed rest same later⟩

theorem ordered_indexed : ∀ (upserts : List (Option String × Patch)) {place place' : Nat}
    {focus other : Focus}, focus.Same other → ∀ {root r : Tree},
      ordered evaluator upserts place focus root = .ok r →
        ordered evaluator (Patch.indexedUpserts upserts place') place other root = .ok r
  | [], _, _, _, _, _, _, _, done => done
  | (key, p) :: rest, place, place', focus, other, same, root, r, done => by
    obtain ⟨merged, first, later⟩ := bind_eq_ok.mp done
    exact bind_eq_ok.mpr ⟨merged, node_indexed p (same.under _ _) first,
      ordered_indexed rest same later⟩

end

end Nodes

end Merge

namespace Tree

theorem merge_eq_ok {evaluator : Evaluator} {base t r : Tree} : merge evaluator base t = .ok r ↔
    ∃ p, Patch.ofTree t = .ok p ∧ Merge.node evaluator p .root base = .ok r ∧
      r.checkPlain = .ok () := by
  constructor
  · intro done
    obtain ⟨p, reads, done⟩ := bind_eq_ok.mp done
    obtain ⟨merged, merges, done⟩ := bind_eq_ok.mp done
    obtain ⟨⟨⟩, plain, done⟩ := bind_eq_ok.mp done
    obtain rfl := Except.ok.inj done
    exact ⟨p, reads, merges, Patch.located_eq_ok.mp plain⟩
  · rintro ⟨p, reads, merges, plain⟩
    exact bind_eq_ok.mpr ⟨p, reads, bind_eq_ok.mpr ⟨r, merges,
      bind_eq_ok.mpr ⟨(), Patch.located_eq_ok.mpr plain, rfl⟩⟩⟩

/-- A merge that succeeds does the same when the lists of the patch are indexed. -/
theorem merge_indexed {evaluator : Evaluator} {base t merged : Tree} (filled : t.ListsFilled)
    (fit : t.ListsFit) (done : merge evaluator base t = .ok merged) :
    merge evaluator base t.indexed = .ok merged := by
  obtain ⟨patch, read, merges, plain⟩ := merge_eq_ok.mp done
  have indexedRead := (Patch.reads t filled fit).node .root patch read .root
  have indexedMerges := Merge.node_indexed patch (show Focus.root.Same Focus.root from rfl) merges
  exact merge_eq_ok.mpr ⟨patch.indexed, indexedRead, indexedMerges, plain⟩

end Tree

namespace AliasTable

/-- An empty assignment stands for the parameters without their axes. -/
theorem overrides_nil {parameters : Tree} {t : AliasTable} (distinct : parameters.Distinct)
    (plain : parameters.isAxis = false) (container : parameters.isLeaf = false)
    (remainder : t.remainder = parameters.withoutAxes) :
    t.overrides [] = .ok parameters.withoutAxes := by
  have into : Choices.Into parameters [] := ⟨by simp, List.nodup_nil⟩
  obtain ⟨base, placed, filled⟩ := Tree.passesTo distinct plain container into
  obtain rfl : [] = base := Option.some.inj placed
  have whole := filled .root
  rw [Tree.rebuilt_nil, ← remainder] at whole
  have noChoices : t.resolve [] = .ok [] := rfl
  have noValues : Tree.ofAxisValues [] = .ok (.mapping []) := rfl
  unfold overrides
  rw [noChoices]
  dsimp only [bind, Except.bind]
  rw [noValues]
  dsimp only
  rw [Tree.withDefaults, whole, ← remainder]
  rfl

/-- For parameters without axes, the overrides of the empty assignment are the indexed parameters. -/
theorem exists_overrides_nil {entries : Mapping Tree} (distinct : (Tree.mapping entries).Distinct)
    {split : AxisSplit} (accepted : (Tree.mapping entries).splitAxes = .ok split)
    (unmarked : (Tree.mapping entries).Unmarked) :
    ∃ t standard, ofSweep (.mapping [(parametersKey, .mapping entries)]) = .ok (t, standard) ∧
      t.overrides [] = .ok (Tree.mapping entries).indexed := by
  obtain ⟨plain, splitOf⟩ := Tree.splitAxes_spec accepted
  have noAxes : split.axes = [] := by
    rw [splitOf.axes, Tree.Unmarked.axisLocations unmarked]
    rfl
  let t : AliasTable := { remainder := split.remainder }
  have registers : register split.axes t = .ok (t, []) := by
    rw [noAxes]
    rfl
  have standardized : ofSweep (.mapping [(parametersKey, .mapping entries)])
      = .ok (t, .mapping [(parametersKey, .mapping [])]) := by
    have given : Mapping.get? parametersKey [(parametersKey, Tree.mapping entries)]
        = some (.mapping entries) := rfl
    unfold ofSweep
    dsimp only
    rw [given]
    dsimp only
    rw [accepted]
    dsimp only
    rw [registers]
    rfl
  refine ⟨t, _, standardized, ?_⟩
  rw [← Tree.withoutAxes_eq_indexed _ unmarked]
  exact overrides_nil distinct plain rfl splitOf.remainder

/-- For parameters without axes and without empty lists, the overrides of the empty assignment merge
into every base like the parameters themselves, whatever calls compute. -/
theorem merge_overrides_nil (evaluator : Evaluator) (base merged : Tree) (entries : Mapping Tree)
    (distinct : (Tree.mapping entries).Distinct) (split : AxisSplit)
    (accepted : (Tree.mapping entries).splitAxes = .ok split)
    (unmarked : (Tree.mapping entries).Unmarked) (filled : (Tree.mapping entries).ListsFilled)
    (fit : (Tree.mapping entries).ListsFit)
    (merges : Tree.merge evaluator base (.mapping entries) = .ok merged) :
    ∃ t standard overrides,
      ofSweep (.mapping [(parametersKey, .mapping entries)]) = .ok (t, standard) ∧
      t.overrides [] = .ok overrides ∧ Tree.merge evaluator base overrides = .ok merged := by
  obtain ⟨t, standard, standardized, overrides⟩ := exists_overrides_nil distinct accepted unmarked
  exact ⟨t, standard, _, standardized, overrides, Tree.merge_indexed filled fit merges⟩

/-- A list that is merged by position, an item that is computed, an edited list, and an upsert. -/
def plainEntries : Mapping Tree :=
  [("layers", .list [.mapping [("width", .int 3)], .mapping [("dy__eval", .str "depth")]]),
    ("tags", .mapping [("dy__list__operations",
      .list [.mapping [("dy__insert", .list [.int 0, .list [.str "new"]])]])]),
    ("dy__upsert", .list [.mapping [("rate", .int 1)]])]

def plainBase : Tree :=
  .mapping [("layers", .list [.mapping [("width", .int 1)], .null]), ("tags", .list []),
    ("depth", .int 9)]

/-- Looks a call up among the fields of the argument. -/
def fieldEvaluator : Evaluator :=
  fun call argument => .ok ((argument.field? call.expression).getD .null)

def plainMerged : Tree :=
  .mapping [("layers", .list [.mapping [("width", .int 3)], .int 9]),
    ("tags", .list [.list [.str "new"]]), ("depth", .int 9), ("rate", .int 1)]

theorem plain_merges :
    Tree.merge fieldEvaluator plainBase (.mapping plainEntries) = .ok plainMerged := by
  with_unfolding_all rfl

theorem merge_overrides_plain :
    ∃ t standard overrides,
      ofSweep (.mapping [(parametersKey, .mapping plainEntries)]) = .ok (t, standard) ∧
      t.overrides [] = .ok overrides ∧
      Tree.merge fieldEvaluator plainBase overrides = .ok plainMerged :=
  merge_overrides_nil fieldEvaluator plainBase plainMerged plainEntries (by decide)
    ⟨[], (Tree.mapping plainEntries).indexed⟩ rfl (by decide) (by decide) (by decide) plain_merges

end AliasTable

end ConfigSweep
