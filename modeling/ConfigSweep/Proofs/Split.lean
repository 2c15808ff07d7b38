import ConfigSweep.Proofs.Location
import ConfigSweep.Proofs.Outcome

/-!
# What splitting a tree yields

A split tree gives its axes in document order, each under the key that joins the steps to it, and
the tree without them. Different axes stand at different paths, and a split that succeeds has
checked that no key outside axes holds the separator.
-/

namespace ConfigSweep.Tree

section Equations

theorem axisLocations_eq (t : Tree) :
    t.axisLocations = t.children.flatMap fun c => childLocations c.1 c.2 c.2.axisLocations := by
  have overItems : ∀ (items : List Tree) (position : Nat), itemLocations items position
      = (numbered items position).flatMap fun c => childLocations c.1 c.2 c.2.axisLocations := by
    intro items
    induction items with
    | nil => intro position; simp [itemLocations, numbered]
    | cons t ts ih => intro position; simp [itemLocations, numbered, ih]
  have overEntries : ∀ entries : List (String × Tree), entryLocations entries
      = (children (.mapping entries)).flatMap
          fun c => childLocations c.1 c.2 c.2.axisLocations := by
    intro entries
    induction entries with
    | nil => simp [entryLocations, children]
    | cons e rest ih => simp [entryLocations, children, ih]
  cases t with
  | list items => rw [axisLocations, overItems, children]
  | mapping entries => rw [axisLocations, overEntries]
  | _ => simp [axisLocations, children]

/-- What a child leaves in the tree with choices. -/
abbrev chosenChild (choose : Path → Option Tree) (c : Step × Tree) : Mapping Tree :=
  survivor choose c.1 c.2 (c.2.withChoices fun path => choose (c.1 :: path))

theorem withChoices_eq (choose : Path → Option Tree) {t : Tree} (container : t.isLeaf = false) :
    t.withChoices choose = .mapping (t.children.flatMap (chosenChild choose)) := by
  have overItems : ∀ (items : List Tree) (position : Nat), itemsWithChoices choose items position
      = (numbered items position).flatMap (chosenChild choose) := by
    intro items
    induction items with
    | nil => intro position; simp [itemsWithChoices, numbered]
    | cons t ts ih => intro position; simp [itemsWithChoices, numbered, ih]
  have overEntries : ∀ entries : List (String × Tree), entriesWithChoices choose entries
      = (children (.mapping entries)).flatMap (chosenChild choose) := by
    intro entries
    induction entries with
    | nil => simp [entriesWithChoices, children]
    | cons e rest ih => simp [entriesWithChoices, children, ih]
  cases t with
  | list items => rw [withChoices, overItems, children]
  | mapping entries => rw [withChoices, overEntries]
  | _ => simp [isLeaf, shape] at container

theorem withChoices_leaf (choose : Path → Option Tree) {t : Tree} (leaf : t.isLeaf = true) :
    t.withChoices choose = t := by
  cases t with
  | list items => simp [isLeaf, shape] at leaf
  | mapping entries => simp [isLeaf, shape] at leaf
  | _ => rfl

theorem container_of_child {t : Tree} {c : Step × Tree} (child : c ∈ t.children) :
    t.isLeaf = false := by
  by_contra leaf
  rw [Bool.not_eq_false] at leaf
  rw [children_leaf leaf] at child
  cases child

theorem outsideKeys_iff {p : String → Prop} {t : Tree} (plain : t.isAxis = false) :
    t.OutsideKeys p ↔ ∀ c ∈ t.children, c.2.OutsideKeys p ∧ ∀ name, c.1 = .key name → p name := by
  have overItems : ∀ (items : List Tree) (position : Nat), OutsideItemKeys p items ↔
      ∀ c ∈ numbered items position, c.2.OutsideKeys p ∧ ∀ name, c.1 = .key name → p name := by
    intro items
    induction items with
    | nil => intro position; simp [OutsideItemKeys, numbered]
    | cons t ts ih => intro position; simp [OutsideItemKeys, numbered, ih (position + 1)]
  have overEntries : ∀ entries : List (String × Tree), OutsideEntryKeys p entries ↔
      ∀ c ∈ (children (.mapping entries)),
        c.2.OutsideKeys p ∧ ∀ name, c.1 = .key name → p name := by
    intro entries
    induction entries with
    | nil => simp [OutsideEntryKeys, children]
    | cons e rest ih => simp [OutsideEntryKeys, children, ih, and_assoc, and_comm]
  cases t with
  | list items => rw [OutsideKeys, overItems items 0, children]
  | mapping entries => rw [OutsideKeys, overEntries]; simp [plain]
  | _ => simp [OutsideKeys, children]

end Equations

section Locations

/-- A location starts with the step to a child and goes on inside it, unless the child is the
axis. -/
theorem mem_axisLocations_iff {t : Tree} {path : Path} {declaration : Mapping Tree} :
    (path, declaration) ∈ t.axisLocations ↔
      ∃ c ∈ t.children, (path = [c.1] ∧ c.2.axisDeclaration? = some declaration) ∨
        (c.2.axisDeclaration? = none ∧
          ∃ rest, path = c.1 :: rest ∧ (rest, declaration) ∈ c.2.axisLocations) := by
  rw [axisLocations_eq, List.mem_flatMap]
  refine exists_congr fun c => and_congr_right fun _ => ?_
  unfold childLocations
  cases c.2.axisDeclaration? with
  | some d => simp [eq_comm]
  | none => simp [eq_comm, and_comm]

theorem ne_nil_of_mem_axisLocations {t : Tree} {path : Path} {declaration : Mapping Tree}
    (member : (path, declaration) ∈ t.axisLocations) : path ≠ [] := by
  obtain ⟨c, -, ⟨rfl, -⟩ | ⟨-, rest, rfl, -⟩⟩ := mem_axisLocations_iff.mp member <;> simp

/-- The locations are the paths that lead to axes. -/
theorem mem_axisLocations {t : Tree} (distinct : t.Distinct) (plain : t.isAxis = false)
    {path : Path} {declaration : Mapping Tree} :
    (path, declaration) ∈ t.axisLocations ↔ t.axisAt? path = some declaration := by
  induction path generalizing t with
  | nil =>
    constructor
    · exact fun member => absurd rfl (ne_nil_of_mem_axisLocations member)
    · intro found
      have axis : t.axisDeclaration? = some declaration := found
      simp [isAxis, axis] at plain
  | cons step rest ih =>
    have walk : t.axisAt? (step :: rest) = (t.child? step).bind (axisAt? rest) := by
      simp only [axisAt?, outside?, plain, Bool.false_eq_true, if_false, Option.bind_assoc]
      rfl
    rw [walk, mem_axisLocations_iff]
    constructor
    · rintro ⟨c, member, ⟨here, axis⟩ | ⟨notHere, below, onward, inside⟩⟩
      · obtain ⟨rfl, rfl⟩ := List.cons.inj here
        rw [(mem_children distinct).mp member]
        exact axis
      · obtain ⟨rfl, rfl⟩ := List.cons.inj onward
        rw [(mem_children distinct).mp member]
        exact (ih (distinct_child distinct c member) (by simp [isAxis, notHere])).mp inside
    · intro found
      obtain ⟨c, toChild, inside⟩ := Option.bind_eq_some_iff.mp found
      refine ⟨(step, c), (mem_children distinct).mpr toChild, ?_⟩
      cases axis : c.axisDeclaration? with
      | none =>
        have below := (ih (distinct_child distinct _ ((mem_children distinct).mpr toChild))
          (by simp [isAxis, axis])).mpr inside
        exact .inr ⟨rfl, rest, rfl, below⟩
      | some d =>
        cases rest with
        | nil => exact .inl ⟨rfl, by rw [← axis]; exact inside⟩
        | cons next after =>
          simp [axisAt?, outside?, isAxis, axis] at inside

/-- No path leads to two axes. -/
theorem axisLocations_nodup {t : Tree} (distinct : t.Distinct) :
    (t.axisLocations.map Prod.fst).Nodup := by
  induction t using children_induction with
  | node t ih =>
    rw [axisLocations_eq, List.map_flatMap, List.nodup_flatMap]
    constructor
    · intro c member
      unfold childLocations
      cases c.2.axisDeclaration? with
      | some d => simp
      | none =>
        have below := ih c member (distinct_child distinct c member)
        rw [List.map_map]
        have shifted : (c.2.axisLocations.map (Prod.fst ∘ fun l => (c.1 :: l.1, l.2)))
            = (c.2.axisLocations.map Prod.fst).map (c.1 :: ·) := by
          simp
        exact shifted ▸ below.map fun _ _ same => (List.cons.inj same).2
    · have steps := children_steps_nodup distinct
      rw [List.nodup_iff_pairwise_ne, List.pairwise_map] at steps
      refine steps.imp fun {a b} different => ?_
      have head : ∀ c : Step × Tree, ∀ path ∈ (childLocations c.1 c.2 c.2.axisLocations).map
          Prod.fst, path.head? = some c.1 := by
        intro c path member
        unfold childLocations at member
        cases axis : c.2.axisDeclaration? <;> rw [axis] at member
        · obtain ⟨l, inside, rfl⟩ := List.mem_map.mp member
          obtain ⟨below, -, rfl⟩ := List.mem_map.mp inside
          rfl
        · simp only [List.map_cons, List.map_nil, List.mem_singleton] at member
          simp [member]
      intro path inA inB
      exact different (Option.some.inj ((head a path inA).symm.trans (head b path inB)))

/-- What holds of the tokens of positions and of all keys outside axes holds of all tokens of
locations. -/
theorem forall_token_of_mem_axisLocations {p : String → Prop} {t : Tree} (plain : t.isAxis = false)
    (keys : t.OutsideKeys p) (positions : ∀ position, p (Position.token position)) {path : Path}
    {declaration : Mapping Tree} (member : (path, declaration) ∈ t.axisLocations) :
    ∀ step ∈ path, p step.token := by
  induction path generalizing t with
  | nil => simp
  | cons step rest ih =>
    obtain ⟨c, child, cases⟩ := mem_axisLocations_iff.mp member
    have here := (outsideKeys_iff plain).mp keys c child
    have first : p c.1.token := by
      cases atStep : c.1 with
      | key name => exact here.2 name atStep
      | index position => exact positions position
    rcases cases with ⟨onward, -⟩ | ⟨notHere, below, onward, inside⟩
    · obtain ⟨rfl, rfl⟩ := List.cons.inj onward
      simpa using first
    · obtain ⟨rfl, rfl⟩ := List.cons.inj onward
      have later := ih (by simp [isAxis, notHere]) here.1 inside
      simpa using ⟨first, later⟩

/-- When all keys outside axes can be cut off, so can all tokens of locations. -/
theorem cuttable_of_mem_axisLocations {t : Tree} (plain : t.isAxis = false)
    (keys : t.OutsideKeys AxisKey.Cuttable) {path : Path} {declaration : Mapping Tree}
    (member : (path, declaration) ∈ t.axisLocations) :
    ∀ step ∈ path, AxisKey.Cuttable step.token :=
  forall_token_of_mem_axisLocations plain keys Position.cuttable_token member

/-- Locations of one tree are told apart by their tokens. -/
theorem location_tokens_inj {t : Tree} (distinct : t.Distinct) {p q : Path} {d e : Mapping Tree}
    (first : (p, d) ∈ t.axisLocations) (second : (q, e) ∈ t.axisLocations)
    (same : p.map Step.token = q.map Step.token) : p = q := by
  induction p generalizing t q with
  | nil => exact absurd rfl (ne_nil_of_mem_axisLocations first)
  | cons step rest ih =>
    obtain ⟨a, childA, casesA⟩ := mem_axisLocations_iff.mp first
    obtain ⟨b, childB, casesB⟩ := mem_axisLocations_iff.mp second
    have stepA : step = a.1 := by
      rcases casesA with ⟨onward, -⟩ | ⟨-, _, onward, -⟩ <;> exact (List.cons.inj onward).1
    obtain ⟨other, more, rfl⟩ := List.exists_cons_of_ne_nil (ne_nil_of_mem_axisLocations second)
    have stepB : other = b.1 := by
      rcases casesB with ⟨onward, -⟩ | ⟨-, _, onward, -⟩ <;> exact (List.cons.inj onward).1
    rw [List.map_cons, List.map_cons, List.cons.injEq] at same
    have steps : a.1 = b.1 := token_inj_of_children childA childB (stepA ▸ stepB ▸ same.1)
    have nodes : a.2 = b.2 := by
      have toA := (mem_children distinct).mp childA
      have toB := (mem_children distinct).mp childB
      rw [steps, toB] at toA
      exact (Option.some.inj toA).symm
    have onward : rest = more := by
      rcases casesA with ⟨hereA, axisA⟩ | ⟨plainA, restA, onA, insideA⟩
      · rw [(List.cons.inj hereA).2] at same ⊢
        exact (List.map_eq_nil_iff.mp same.2.symm).symm
      · rcases casesB with ⟨hereB, axisB⟩ | ⟨plainB, restB, onB, insideB⟩
        · rw [nodes, axisB] at plainA
          cases plainA
        · rw [(List.cons.inj onA).2] at same ih ⊢
          rw [(List.cons.inj onB).2] at same ⊢
          exact ih (distinct_child distinct a childA) insideA (nodes ▸ insideB) same.2
    rw [stepA, stepB, steps, onward]

/-- Axes under one key are one axis. -/
theorem axisKey_inj {t : Tree} (distinct : t.Distinct) (plain : t.isAxis = false)
    (keys : t.OutsideKeys AxisKey.Cuttable) {l m : Path × Mapping Tree}
    (first : l ∈ t.axisLocations) (second : m ∈ t.axisLocations)
    (same : AxisKey.ofSteps l.1 = AxisKey.ofSteps m.1) : l = m := by
  have cuttable : ∀ n ∈ t.axisLocations, ∀ step ∈ n.1, AxisKey.Cuttable step.token :=
    fun n member => cuttable_of_mem_axisLocations plain keys (show (n.1, n.2) ∈ t.axisLocations from member)
  have tokens := AxisKey.ofSteps_inj (ne_nil_of_mem_axisLocations first)
    (ne_nil_of_mem_axisLocations second) (cuttable l first) (cuttable m second) same
  have paths := location_tokens_inj distinct first second tokens
  exact List.inj_on_of_nodup_map (axisLocations_nodup distinct) first second paths

theorem OutsideKeys.and {p q : String → Prop} {t : Tree} (first : t.OutsideKeys p)
    (second : t.OutsideKeys q) : t.OutsideKeys fun key => p key ∧ q key := by
  induction t using children_induction with
  | node t ih =>
    cases axis : t.isAxis with
    | true =>
      cases t with
      | mapping entries => exact .inl axis
      | _ => cases axis
    | false =>
      rw [outsideKeys_iff axis] at first second ⊢
      intro c child
      have left := first c child
      have right := second c child
      exact ⟨ih c child left.1 right.1, fun name here => ⟨left.2 name here, right.2 name here⟩⟩

theorem OutsideKeys.imp {p q : String → Prop} {t : Tree} (implies : ∀ key, p key → q key)
    (keys : t.OutsideKeys p) : t.OutsideKeys q := by
  induction t using children_induction with
  | node t ih =>
    cases axis : t.isAxis with
    | true =>
      cases t with
      | mapping entries => exact .inl axis
      | _ => cases axis
    | false =>
      rw [outsideKeys_iff axis] at keys ⊢
      exact fun c child => ⟨ih c child (keys c child).1,
        fun name here => implies name ((keys c child).2 name here)⟩

theorem distinct_declaration {t : Tree} (distinct : t.Distinct) {path : Path}
    {declaration : Mapping Tree} (member : (path, declaration) ∈ t.axisLocations) :
    (Tree.mapping declaration).Distinct := by
  induction t using children_induction generalizing path with
  | node t ih =>
    obtain ⟨⟨step, node⟩, child, ⟨-, axis⟩ | ⟨-, rest, -, inside⟩⟩ := mem_axisLocations_iff.mp member
    · have below := distinct_child distinct _ child
      cases node with
      | mapping entries =>
        dsimp only [axisDeclaration?] at axis
        split at axis
        · obtain rfl := Option.some.inj axis
          exact distinct_remove below
        · cases axis
      | _ => cases axis
    · exact ih _ child (distinct_child distinct _ child) inside

end Locations

section Splitting

/-- The axis at a location. -/
def axisOf (l : Path × Mapping Tree) : Axis :=
  ⟨.ofSteps l.1, l.2⟩

/-- What a successful split of a node says of its axes, its remainder and its keys. -/
structure SplitOf (t : Tree) (split : AxisSplit) : Prop where
  axes : split.axes = t.axisLocations.map axisOf
  remainder : split.remainder = t.withoutAxes
  keys : t.OutsideKeys fun key => ¬ AxisKey.separator.toList <:+: key.toList

/-- The same of a part of a node's children. -/
structure CutOf (children : List (Step × Tree)) (cut : Cut) : Prop where
  axes : cut.axes = children.flatMap fun c =>
    (childLocations c.1 c.2 c.2.axisLocations).map axisOf
  entries : cut.entries = children.flatMap (chosenChild fun _ => none)

theorem child_cutOf {step : Step} {t : Tree} {below : Outcome AxisSplit} {cut : Cut}
    (done : Cut.child step t below = .ok cut)
    (split : ∀ s, below = .ok s → s.axes = t.axisLocations.map axisOf ∧ s.remainder = t.withoutAxes) :
    CutOf [(step, t)] cut := by
  unfold Cut.child at done
  constructor
  all_goals
    simp only [List.flatMap_cons, List.flatMap_nil, List.append_nil, childLocations, chosenChild,
      survivor]
    cases axis : t.axisDeclaration? <;> rw [axis] at done
  · obtain ⟨s, succeeded, rfl⟩ := map_eq_ok.mp done
    rw [(split s succeeded).1, List.map_map, List.map_map]
    refine List.map_congr_left fun l member => ?_
    have below := ne_nil_of_mem_axisLocations (show (l.1, l.2) ∈ t.axisLocations from member)
    simp only [Function.comp, axisOf, Axis.under, AxisKey.ofSteps_cons step below]
  · obtain rfl := Except.ok.inj done
    rfl
  · obtain ⟨s, succeeded, rfl⟩ := map_eq_ok.mp done
    simp [(split s succeeded).2]
  · obtain rfl := Except.ok.inj done
    rfl

theorem CutOf.append {a b : List (Step × Tree)} {first second : Cut} (left : CutOf a first)
    (right : CutOf b second) : CutOf (a ++ b) (first.append second) where
  axes := by simp [Cut.append, left.axes, right.axes]
  entries := by simp [Cut.append, left.entries, right.entries]

theorem CutOf.close {t : Tree} {cut : Cut} (cutOf : CutOf t.children cut)
    (container : t.isLeaf = false) :
    cut.close.axes = t.axisLocations.map axisOf ∧ cut.close.remainder = t.withoutAxes := by
  constructor
  · rw [axisLocations_eq, List.map_flatMap]
    exact cutOf.axes
  · rw [withoutAxes, withChoices_eq _ container, Cut.close, cutOf.entries]

theorem checkSplittable_eq_ok {key : String} {trail : Trail}
    (done : checkSplittable key trail = .ok ()) :
    ¬ AxisKey.separator.toList <:+: key.toList := by
  unfold checkSplittable at done
  split at done
  · cases done
  · next absent => exact fun inside => absent ((Text.contains_iff (by decide) _).mpr inside)

/-- An axis has no keys outside axes, and any other child was split itself. -/
theorem child_outsideKeys {p : String → Prop} {step : Step} {t : Tree} {below : Outcome AxisSplit}
    {cut : Cut} (done : Cut.child step t below = .ok cut)
    (keys : ∀ s, below = .ok s → t.OutsideKeys p) : t.OutsideKeys p := by
  unfold Cut.child at done
  cases axis : t.axisDeclaration? with
  | none =>
    rw [axis] at done
    obtain ⟨s, succeeded, -⟩ := map_eq_ok.mp done
    exact keys s succeeded
  | some declaration =>
    cases t with
    | mapping entries => exact .inl (by simp [isAxis, axis])
    | _ => simp [axisDeclaration?] at axis

mutual

theorem splitNode_spec : ∀ (t : Tree) (trail : Trail) (split : AxisSplit),
    t.splitNode trail = .ok split → SplitOf t split
  | .list items, trail, split, done => by
    obtain ⟨cut, parts, rfl⟩ := map_eq_ok.mp done
    obtain ⟨cutOf, keys⟩ := splitItems_spec items 0 trail cut parts
    obtain ⟨axes, remainder⟩ := CutOf.close (t := .list items) cutOf rfl
    exact ⟨axes, remainder, keys⟩
  | .mapping entries, trail, split, done => by
    obtain ⟨cut, parts, rfl⟩ := map_eq_ok.mp done
    obtain ⟨cutOf, keys⟩ := splitEntries_spec entries trail cut parts
    obtain ⟨axes, remainder⟩ := CutOf.close (t := .mapping entries) cutOf rfl
    exact ⟨axes, remainder, .inr keys⟩
  | .null, _, _, done => by obtain rfl := Except.ok.inj done; exact ⟨rfl, rfl, trivial⟩
  | .bool _, _, _, done => by obtain rfl := Except.ok.inj done; exact ⟨rfl, rfl, trivial⟩
  | .int _, _, _, done => by obtain rfl := Except.ok.inj done; exact ⟨rfl, rfl, trivial⟩
  | .float _, _, _, done => by obtain rfl := Except.ok.inj done; exact ⟨rfl, rfl, trivial⟩
  | .str _, _, _, done => by obtain rfl := Except.ok.inj done; exact ⟨rfl, rfl, trivial⟩

theorem splitItems_spec : ∀ (items : List Tree) (position : Nat) (trail : Trail) (cut : Cut),
    splitItems items position trail = .ok cut → CutOf (numbered items position) cut ∧
      OutsideItemKeys (fun key => ¬ AxisKey.separator.toList <:+: key.toList) items
  | [], _, _, cut, done => by
    obtain rfl := Except.ok.inj done
    exact ⟨⟨rfl, rfl⟩, trivial⟩
  | t :: ts, position, trail, cut, done => by
    obtain ⟨first, here, done⟩ := bind_eq_ok.mp done
    obtain ⟨later, rest, done⟩ := bind_eq_ok.mp done
    obtain rfl := Except.ok.inj done
    obtain ⟨restOf, restKeys⟩ := splitItems_spec ts (position + 1) trail later rest
    have spec := splitNode_spec t (trail.child (Step.index position).label)
    have firstOf := child_cutOf here fun s done => ⟨(spec s done).axes, (spec s done).remainder⟩
    exact ⟨firstOf.append restOf, child_outsideKeys here fun s done => (spec s done).keys, restKeys⟩

theorem splitEntries_spec : ∀ (entries : List (String × Tree)) (trail : Trail) (cut : Cut),
    splitEntries entries trail = .ok cut → CutOf (children (.mapping entries)) cut ∧
      OutsideEntryKeys (fun key => ¬ AxisKey.separator.toList <:+: key.toList) entries
  | [], _, cut, done => by
    obtain rfl := Except.ok.inj done
    exact ⟨⟨rfl, rfl⟩, trivial⟩
  | (key, t) :: rest, trail, cut, done => by
    obtain ⟨⟨⟩, checked, done⟩ := bind_eq_ok.mp done
    obtain ⟨first, here, done⟩ := bind_eq_ok.mp done
    obtain ⟨later, remaining, done⟩ := bind_eq_ok.mp done
    obtain rfl := Except.ok.inj done
    obtain ⟨restOf, restKeys⟩ := splitEntries_spec rest trail later remaining
    have spec := splitNode_spec t (trail.child key)
    have firstOf := child_cutOf here fun s done => ⟨(spec s done).axes, (spec s done).remainder⟩
    exact ⟨firstOf.append restOf, checkSplittable_eq_ok checked,
      child_outsideKeys here fun s done => (spec s done).keys, restKeys⟩

end

/-- A parameters tree that can be split is no axis, and splits into its axes and the rest. -/
theorem splitAxes_spec {t : Tree} {split : AxisSplit} (done : t.splitAxes = .ok split) :
    t.isAxis = false ∧ SplitOf t split := by
  unfold splitAxes at done
  cases axis : t.axisDeclaration? with
  | some declaration => rw [axis] at done; cases done
  | none =>
    rw [axis] at done
    exact ⟨by simp [isAxis, axis], splitNode_spec t .root split done⟩

end Splitting

end ConfigSweep.Tree
