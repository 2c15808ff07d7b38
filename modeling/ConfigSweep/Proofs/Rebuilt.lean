import ConfigSweep.Proofs.Choices
import ConfigSweep.Proofs.Equality
import ConfigSweep.Proofs.Filling

/-!
# The tree rebuilt from choices

`Tree.rebuilt` is the tree with choices as the passes of an assignment leave it: in every mapping
the keys that lead to choices come first, in the order in which the choices use them, and the other
keys follow as they were authored. Placing the values and filling up with what the axes left of the
tree yields exactly this.
-/

namespace ConfigSweep

namespace Mapping

variable {α : Type}

/-- The entries under the given keys that are there. -/
def pick (names : List String) (m : Mapping α) : Mapping α :=
  names.filterMap fun key => (m.get? key).map fun v => (key, v)

/-- The mapping with some of its keys put first, in the order of their first mention. -/
def leading (names : List String) (m : Mapping α) : Mapping α :=
  pick names.eraseDups m ++ m.filter fun e => e.1 ∉ names

theorem keys_pick (names : List String) (m : Mapping α) :
    keys (pick names m) = names.filter fun key => m.has key := by
  induction names with
  | nil => rfl
  | cons key rest ih =>
    unfold pick at ih ⊢
    cases found : m.get? key with
    | none =>
      rw [List.filterMap_cons_none (by simp [found]), List.filter_cons_of_neg (by simp [has, found]),
        ih]
    | some v =>
      rw [List.filterMap_cons_some (by simp [found]; rfl),
        List.filter_cons_of_pos (by simp [has, found]), keys_cons, ih]

theorem get?_pick (names : List String) (m : Mapping α) (key : String) :
    get? key (pick names m) = if key ∈ names then m.get? key else none := by
  induction names with
  | nil => simp [pick]
  | cons name rest ih =>
    unfold pick at ih ⊢
    cases found : m.get? name with
    | none =>
      rw [List.filterMap_cons_none (by simp [found]), ih]
      by_cases here : key = name
      · simp [here, found]
      · simp [here]
    | some v =>
      rw [List.filterMap_cons_some (by simp [found]; rfl), get?_cons, ih]
      by_cases here : name = key
      · subst here
        simp [found]
      · simp [here, Ne.symm here]

theorem get?_without (names : List String) (m : Mapping α) (key : String) :
    get? key (m.filter fun e => e.1 ∉ names) = if key ∈ names then none else m.get? key := by
  induction m with
  | nil => simp
  | cons e rest ih =>
    by_cases named : e.1 ∈ names
    · rw [List.filter_cons_of_neg (by simpa using named), ih, get?_cons]
      by_cases here : e.1 = key
      · simp [← here, named]
      · simp [here]
    · rw [List.filter_cons_of_pos (by simpa using named), get?_cons, get?_cons, ih]
      by_cases here : e.1 = key
      · simp [← here, named]
      · simp [here]

theorem keys_without (names : List String) (m : Mapping α) :
    keys (m.filter fun e => e.1 ∉ names) = (keys m).filter (· ∉ names) := by
  unfold keys
  rw [List.filter_map]
  rfl

/-- Putting keys first changes no value. -/
theorem get?_leading (names : List String) (m : Mapping α) (key : String) :
    get? key (leading names m) = m.get? key := by
  rw [leading, get?_append, get?_pick, get?_without]
  by_cases named : key ∈ names <;> simp [named]

theorem keys_leading {names : List String} {m : Mapping α} (known : ∀ key ∈ names, key ∈ keys m) :
    keys (leading names m) = names.eraseDups ++ (keys m).filter (· ∉ names) := by
  rw [leading, keys_append, keys_pick, keys_without]
  congr 1
  refine List.filter_eq_self.mpr fun key member => ?_
  exact has_iff.mpr (known key (List.mem_eraseDups.mp member))

theorem nodup_eraseDups : ∀ names : List String, names.eraseDups.Nodup
  | [] => List.nodup_nil
  | name :: rest => by
    rw [List.eraseDups_cons, List.nodup_cons]
    refine ⟨?_, nodup_eraseDups _⟩
    simp
termination_by names => names.length
decreasing_by exact Nat.lt_succ_of_le (List.length_filter_le _ _)

theorem nodup_keys_leading (names : List String) {m : Mapping α} (unique : (keys m).Nodup) :
    (keys (leading names m)).Nodup := by
  rw [leading, keys_append, keys_pick, keys_without, List.nodup_append]
  refine ⟨(nodup_eraseDups names).filter _, unique.filter _, ?_⟩
  rintro a first b second rfl
  have named := List.mem_eraseDups.mp (List.mem_filter.mp first).1
  simpa [named] using (List.mem_filter.mp second).2

theorem leading_nil (m : Mapping α) : leading [] m = m := by
  simp [leading, pick]

end Mapping

namespace Tree

/-- What is left of a child: the value chosen for it when it is an axis, else what is below it. -/
def left? (choose : Path → Option Tree) (step : Step) (t below : Tree) : Option Tree :=
  match t.axisDeclaration? with
  | some _ => choose [step]
  | none => some below

theorem left?_axis (choose : Path → Option Tree) (step : Step) {t : Tree} (below : Tree)
    (axis : t.isAxis = true) : left? choose step t below = choose [step] := by
  unfold isAxis at axis
  unfold left?
  cases found : t.axisDeclaration? with
  | none => simp [found] at axis
  | some declaration => rfl

theorem left?_plain (choose : Path → Option Tree) (step : Step) {t : Tree} (below : Tree)
    (plain : t.isAxis = false) : left? choose step t below = some below := by
  unfold isAxis at plain
  unfold left?
  cases found : t.axisDeclaration? with
  | none => rfl
  | some declaration => simp [found] at plain

theorem survivor_eq (choose : Path → Option Tree) (step : Step) (t below : Tree) :
    survivor choose step t below
      = (left? choose step t below).toList.map fun value => (step.token, value) := by
  unfold survivor left?
  cases t.axisDeclaration? <;> rfl

/-- Entries for the children for which there is a value, under the tokens of the steps. -/
def entriesOf (children : List (Step × Tree)) (value? : Step × Tree → Option Tree) :
    Mapping Tree :=
  children.flatMap fun c => (value? c).toList.map fun value => (c.1.token, value)

section EntriesOf

variable {children : List (Step × Tree)} (value? : Step × Tree → Option Tree)

theorem keys_entriesOf (children : List (Step × Tree)) :
    Mapping.keys (entriesOf children value?)
      = (children.filter fun c => (value? c).isSome).map fun c => c.1.token := by
  induction children with
  | nil => rfl
  | cons c rest ih =>
    unfold entriesOf at ih ⊢
    rw [List.flatMap_cons, Mapping.keys_append, ih]
    cases found : value? c with
    | none => rw [List.filter_cons_of_neg (by simp [found])]; rfl
    | some v => rw [List.filter_cons_of_pos (by simp [found])]; rfl

theorem nodup_keys_entriesOf (different : (children.map fun c => c.1.token).Nodup) :
    (Mapping.keys (entriesOf children value?)).Nodup := by
  rw [keys_entriesOf]
  exact different.sublist (List.filter_sublist.map _)

theorem get?_entriesOf (different : (children.map fun c => c.1.token).Nodup) {c : Step × Tree}
    (child : c ∈ children) : Mapping.get? c.1.token (entriesOf children value?) = value? c := by
  have unique := nodup_keys_entriesOf value? different
  cases found : value? c with
  | some v =>
    refine Mapping.get?_of_mem unique (List.mem_flatMap.mpr ⟨c, child, ?_⟩)
    simp [found]
  | none =>
    rw [Mapping.get?_eq_none_iff, keys_entriesOf, List.mem_map]
    rintro ⟨d, member, same⟩
    obtain ⟨other, filled⟩ := List.mem_filter.mp member
    have equal := List.inj_on_of_nodup_map different other child same
    rw [equal, found] at filled
    cases filled

theorem get?_entriesOf_of_absent {key : String} (absent : ∀ c ∈ children, c.1.token ≠ key) :
    Mapping.get? key (entriesOf children value?) = none := by
  rw [Mapping.get?_eq_none_iff, keys_entriesOf, List.mem_map]
  rintro ⟨c, member, same⟩
  exact absent c (List.mem_filter.mp member).1 same

theorem mem_entriesOf {e : String × Tree} :
    e ∈ entriesOf children value? ↔ ∃ c ∈ children, e.1 = c.1.token ∧ value? c = some e.2 := by
  unfold entriesOf
  rw [List.mem_flatMap]
  refine exists_congr fun c => and_congr_right fun _ => ?_
  obtain ⟨key, v⟩ := e
  cases value? c <;> simp [eq_comm, and_comm]

end EntriesOf

/-- Different children of a node have different tokens. -/
theorem children_tokens_nodup {t : Tree} (distinct : t.Distinct) :
    (t.children.map fun c => c.1.token).Nodup := by
  have steps := children_steps_nodup distinct
  have tokens : (t.children.map fun c => c.1.token) = (t.children.map Prod.fst).map Step.token := by
    simp
  rw [tokens]
  refine steps.map_on fun a first b second same => ?_
  obtain ⟨c, childA, rfl⟩ := List.mem_map.mp first
  obtain ⟨d, childB, rfl⟩ := List.mem_map.mp second
  exact token_inj_of_children childA childB same

theorem withChoices_mapping (choose : Path → Option Tree) {t : Tree}
    (container : t.isLeaf = false) :
    t.withChoices choose = .mapping (entriesOf t.children fun c =>
      left? choose c.1 c.2 (c.2.withChoices fun path => choose (c.1 :: path))) := by
  rw [withChoices_eq choose container]
  exact congrArg Tree.mapping (List.flatMap_congr fun c _ => survivor_eq choose c.1 c.2 _)

mutual

/-- The tree with choices, the keys that lead to choices being first in every mapping. -/
def rebuilt (cs : Choices) : Tree → Tree
  | .list items => .mapping (Mapping.leading cs.leads (rebuiltItems cs items 0))
  | .mapping entries => .mapping (Mapping.leading cs.leads (rebuiltEntries cs entries))
  | leaf => leaf

def rebuiltItems (cs : Choices) : List Tree → Nat → Mapping Tree
  | [], _ => []
  | t :: ts, position =>
    survivor (fun path => cs.at? path) (.index position) t (rebuilt (cs.under (.index position)) t)
      ++ rebuiltItems cs ts (position + 1)

def rebuiltEntries (cs : Choices) : List (String × Tree) → Mapping Tree
  | [] => []
  | (key, t) :: rest =>
    survivor (fun path => cs.at? path) (.key key) t (rebuilt (cs.under (.key key)) t)
      ++ rebuiltEntries cs rest

end

/-- What is left of a child of a rebuilt node. -/
abbrev rebuiltChild? (cs : Choices) (c : Step × Tree) : Option Tree :=
  left? (fun path => cs.at? path) c.1 c.2 (c.2.rebuilt (cs.under c.1))

theorem rebuilt_eq (cs : Choices) {t : Tree} (container : t.isLeaf = false) :
    t.rebuilt cs = .mapping (Mapping.leading cs.leads (entriesOf t.children (rebuiltChild? cs))) := by
  have overItems : ∀ (items : List Tree) (position : Nat), rebuiltItems cs items position
      = entriesOf (numbered items position) (rebuiltChild? cs) := by
    intro items
    induction items with
    | nil => intro position; simp [rebuiltItems, numbered, entriesOf]
    | cons t ts ih =>
      intro position
      simp [rebuiltItems, numbered, ih, entriesOf, survivor_eq]
  have overEntries : ∀ entries : List (String × Tree), rebuiltEntries cs entries
      = entriesOf (children (.mapping entries)) (rebuiltChild? cs) := by
    intro entries
    induction entries with
    | nil => simp [rebuiltEntries, children, entriesOf]
    | cons e rest ih =>
      rw [rebuiltEntries, ih]
      simp [children, entriesOf, survivor_eq]
  cases t with
  | list items => rw [rebuilt, overItems, children]
  | mapping entries => rw [rebuilt, overEntries]
  | _ => simp [isLeaf, shape] at container

theorem rebuilt_leaf (cs : Choices) {t : Tree} (leaf : t.isLeaf = true) : t.rebuilt cs = t := by
  cases t with
  | list items => simp [isLeaf, shape] at leaf
  | mapping entries => simp [isLeaf, shape] at leaf
  | _ => rfl

/-- Without choices the axes are taken out and nothing moves. -/
theorem rebuilt_nil (t : Tree) : t.rebuilt [] = t.withoutAxes := by
  induction t using children_induction with
  | node t ih =>
    by_cases leaf : t.isLeaf = true
    · rw [rebuilt_leaf _ leaf, withoutAxes, withChoices_leaf _ leaf]
    · rw [Bool.not_eq_true] at leaf
      rw [rebuilt_eq _ leaf, withoutAxes, withChoices_mapping _ leaf]
      have noLeads : Choices.leads [] = [] := rfl
      rw [noLeads, Mapping.leading_nil, entriesOf, entriesOf]
      refine congrArg Tree.mapping (List.flatMap_congr fun c child => ?_)
      have same : c.2.rebuilt (Choices.under c.1 []) = c.2.withoutAxes := ih c child
      unfold rebuiltChild?
      rw [same]
      rfl

section Values

/-- When choices agree with a choice function on all axes, the rebuilt tree holds the value of the
tree with choices. -/
theorem rebuilt_sameValue {t : Tree} (distinct : t.Distinct) {cs : Choices}
    {choose : Path → Option Tree}
    (agree : ∀ l ∈ t.axisLocations, SameValue? (cs.at? l.1) (choose l.1)) :
    sameValue (t.rebuilt cs) (t.withChoices choose) = true := by
  induction t using children_induction generalizing cs choose with
  | node t ih =>
    by_cases leaf : t.isLeaf = true
    · rw [rebuilt_leaf _ leaf, withChoices_leaf _ leaf]
      exact sameValue_refl t distinct
    · rw [Bool.not_eq_true] at leaf
      have tokens := children_tokens_nodup distinct
      rw [rebuilt_eq _ leaf, withChoices_mapping _ leaf]
      refine sameValue_of_get? (Mapping.nodup_keys_leading _ (nodup_keys_entriesOf _ tokens))
        (nodup_keys_entriesOf _ tokens) fun key => ?_
      rw [Mapping.get?_leading]
      by_cases known : ∃ c ∈ t.children, c.1.token = key
      · obtain ⟨c, child, rfl⟩ := known
        rw [get?_entriesOf _ tokens child, get?_entriesOf _ tokens child]
        cases axis : c.2.axisDeclaration? with
        | some declaration =>
          have isAxis : c.2.isAxis = true := by simp [Tree.isAxis, axis]
          rw [rebuiltChild?, left?_axis _ _ _ isAxis, left?_axis _ _ _ isAxis]
          exact agree ([c.1], declaration)
            (mem_axisLocations_iff.mpr ⟨c, child, .inl ⟨rfl, axis⟩⟩)
        | none =>
          have plain : c.2.isAxis = false := by simp [Tree.isAxis, axis]
          rw [rebuiltChild?, left?_plain _ _ _ plain, left?_plain _ _ _ plain]
          refine .some (ih c child (distinct_child distinct c child) fun l member => ?_)
          rw [Choices.at?_under]
          exact agree (c.1 :: l.1, l.2)
            (mem_axisLocations_iff.mpr ⟨c, child, .inr ⟨axis, l.1, rfl, member⟩⟩)
      · have absent : ∀ c ∈ t.children, c.1.token ≠ key := fun c child same =>
          known ⟨c, child, same⟩
        rw [get?_entriesOf_of_absent _ absent, get?_entriesOf_of_absent _ absent]
        exact .none

end Values

section Passes

open Choices Mapping

/-- A tree into which something is chosen is a container. -/
theorem container_of_into {t : Tree} {cs : Choices} (into : cs.Into t) (chosen : cs ≠ []) :
    t.isLeaf = false := by
  obtain ⟨⟨path, value⟩, rest, rfl⟩ := List.exists_cons_of_ne_nil chosen
  obtain ⟨c, child, -⟩ := into.starts List.mem_cons_self
  exact container_of_child child

/-- The slot of a child after placing values: the value of an axis, nothing where nothing is
chosen, else a mapping that can be filled up. -/
structure SlotOf (cs : Choices) (c : Step × Tree) (slot : Option Tree) : Prop where
  placed : placeEachBelow (cs.placements.behind c.1.token) none = some slot
  axis : c.2.isAxis = true → slot = cs.at? [c.1]
  untouched : c.2.isAxis = false → cs.under c.1 = [] → slot = none
  touched : c.2.isAxis = false → cs.under c.1 ≠ [] → ∃ base, slot = some (.mapping base) ∧
    ∀ trail, addAt c.2.withoutAxes (.mapping base) trail = .ok (c.2.rebuilt (cs.under c.1))

/-- Placing the choices for a tree and filling up with the rest of the tree. -/
def PassesTo (t : Tree) (cs : Choices) : Prop :=
  ∃ base, placeEach cs.placements [] = some base ∧
    ∀ trail, addAt t.withoutAxes (.mapping base) trail = .ok (t.rebuilt cs)

theorem exists_slotOf {t : Tree} (distinct : t.Distinct) {cs : Choices} (into : cs.Into t)
    {c : Step × Tree} (child : c ∈ t.children)
    (below : c.2.isAxis = false → cs.under c.1 ≠ [] → c.2.PassesTo (cs.under c.1)) :
    ∃ slot, SlotOf cs c slot := by
  cases axis : c.2.isAxis with
  | true =>
    refine ⟨cs.at? [c.1], ?_, fun _ => rfl, by simp [axis], by simp [axis]⟩
    rw [into.behind child, into.under_axis distinct child axis]
    cases cs.at? [c.1] <;> rfl
  | false =>
    by_cases nothing : cs.under c.1 = []
    · refine ⟨none, ?_, by simp [axis], fun _ _ => rfl, fun _ chosen => absurd nothing chosen⟩
      rw [into.behind child, nothing]
      rfl
    · obtain ⟨base, placed, filled⟩ := below axis nothing
      refine ⟨some (.mapping base), ?_, by simp [axis], fun _ empty => absurd empty nothing,
        fun _ _ => ⟨base, rfl, filled⟩⟩
      have inside := (into.under distinct child axis).placements_filled
      have nonempty : (cs.under c.1).placements ≠ [] := by
        simpa [placements] using nothing
      rw [into.behind child, placeEachBelow_none inside nonempty, placed]
      rfl

/-- The keys of a rebuilt node: those that lead to choices, then those of the rest of the tree. -/
theorem keys_rebuilt {t : Tree} (distinct : t.Distinct) {cs : Choices} (into : cs.Into t) :
    Mapping.keys (leading cs.leads (entriesOf t.children (rebuiltChild? cs)))
      = cs.leads.eraseDups ++ (Mapping.keys (entriesOf t.children fun c =>
          left? (fun _ => none) c.1 c.2 c.2.withoutAxes)).filter (· ∉ cs.leads) := by
  have leads : ∀ c ∈ t.children, c.1.token ∈ cs.leads ↔ cs.under c.1 ≠ [] := by
    intro c child
    have cut := into.behind child
    constructor
    · intro member nothing
      rw [nothing] at cut
      exact Placements.behind_eq_nil_iff.mp cut member
    · intro chosen
      by_contra absent
      rw [Placements.behind_eq_nil_iff.mpr absent] at cut
      exact chosen (List.map_eq_nil_iff.mp cut.symm)
  have chosenAxis : ∀ c ∈ t.children, c.2.isAxis = true →
      ((cs.at? [c.1]).isSome ↔ cs.under c.1 ≠ []) := by
    intro c child axis
    rw [into.under_axis distinct child axis]
    cases cs.at? [c.1] <;> simp
  rw [keys_leading, keys_entriesOf, keys_entriesOf, List.filter_map, List.filter_map,
    List.filter_filter, List.filter_filter]
  · congr 2
    refine List.filter_congr fun c child => ?_
    cases axis : c.2.isAxis with
    | false => simp [rebuiltChild?, left?_plain, axis]
    | true =>
      have same := chosenAxis c child axis
      rw [← leads c child] at same
      by_cases member : c.1.token ∈ cs.leads
      · simp [member]
      · have unchosen : cs.at? [c.1] = none := by
          rw [← Option.not_isSome_iff_eq_none, same]
          exact member
        simp [rebuiltChild?, left?_axis, axis, unchosen]
  · intro key member
    obtain ⟨c, child, rfl⟩ := into.mem_leads member
    rw [keys_entriesOf]
    refine List.mem_map.mpr ⟨c, List.mem_filter.mpr ⟨child, ?_⟩, rfl⟩
    cases axis : c.2.isAxis with
    | false => simp [rebuiltChild?, left?_plain, axis]
    | true =>
      rw [rebuiltChild?, left?_axis _ _ _ axis]
      exact (chosenAxis c child axis).mpr ((leads c child).mp member)

/-- What is left of a child fits into its slot. -/
theorem SlotOf.addAt {cs : Choices} {c : Step × Tree} {slot : Option Tree} (spec : SlotOf cs c slot)
    {value b : Tree} (kept : left? (fun _ => none) c.1 c.2 c.2.withoutAxes = some value)
    (found : slot = some b) (trail : Trail) :
    Tree.addAt value b trail = .ok ((rebuiltChild? cs c).getD .null) := by
  cases axis : c.2.isAxis with
  | true =>
    rw [left?_axis _ _ _ axis] at kept
    cases kept
  | false =>
    rw [left?_plain _ _ _ axis] at kept
    obtain rfl := Option.some.inj kept
    have chosen : cs.under c.1 ≠ [] := by
      intro nothing
      rw [spec.untouched axis nothing] at found
      cases found
    obtain ⟨m, same, filled⟩ := spec.touched axis chosen
    obtain rfl := Option.some.inj (same.symm.trans found)
    rw [filled, rebuiltChild?, left?_plain _ _ _ axis]
    rfl

/-- The slot of a child, filled up with what is left of the child, holds the rebuilt child. -/
theorem SlotOf.filledUnder {cs : Choices} {c : Step × Tree} {slot : Option Tree}
    (spec : SlotOf cs c slot) {merged : String → Tree}
    (filled : merged c.1.token = (rebuiltChild? cs c).getD .null) :
    Tree.filledUnder merged slot (left? (fun _ => none) c.1 c.2 c.2.withoutAxes) c.1.token
      = rebuiltChild? cs c := by
  cases axis : c.2.isAxis with
  | true =>
    rw [rebuiltChild?, left?_axis _ _ _ axis, left?_axis _ _ _ axis, spec.axis axis]
    cases cs.at? [c.1] <;> rfl
  | false =>
    rw [rebuiltChild?, left?_plain _ _ _ axis] at filled
    rw [rebuiltChild?, left?_plain _ _ _ axis, left?_plain _ _ _ axis]
    by_cases nothing : cs.under c.1 = []
    · rw [spec.untouched axis nothing, nothing, rebuilt_nil]
      rfl
    · obtain ⟨m, same, -⟩ := spec.touched axis nothing
      rw [same, Tree.filledUnder, filled]
      rfl

/-- The slot of a key after placing values: that of the child under the key, if there is one. -/
structure KeySlot (t : Tree) (cs : Choices) (key : String) (slot : Option Tree) : Prop where
  placed : placeEachBelow (cs.placements.behind key) none = some slot
  ofChild : ∀ c ∈ t.children, c.1.token = key → SlotOf cs c slot
  ofNone : (∀ c ∈ t.children, c.1.token ≠ key) → slot = none

theorem exists_keySlot {t : Tree} (distinct : t.Distinct) {cs : Choices} (into : cs.Into t)
    (slots : ∀ c ∈ t.children, ∃ slot, SlotOf cs c slot) (key : String) :
    ∃ slot, KeySlot t cs key slot := by
  by_cases known : ∃ c ∈ t.children, c.1.token = key
  · obtain ⟨c, child, rfl⟩ := known
    obtain ⟨slot, spec⟩ := slots c child
    refine ⟨slot, spec.placed, fun d other same => ?_, fun absent => absurd rfl (absent c child)⟩
    rw [List.inj_on_of_nodup_map (children_tokens_nodup distinct) other child same]
    exact spec
  · have unused : key ∉ cs.leads := fun member => known (into.mem_leads member)
    refine ⟨none, ?_, fun c child same => absurd ⟨c, child, same⟩ known, fun _ => rfl⟩
    rw [Placements.behind_eq_nil_iff.mpr unused]
    rfl

/-- The passes yield the rebuilt tree. -/
theorem passesTo {t : Tree} (distinct : t.Distinct) (plain : t.isAxis = false)
    (container : t.isLeaf = false) {cs : Choices} (into : cs.Into t) : t.PassesTo cs := by
  induction t using children_induction generalizing cs with
  | node t ih =>
    have slots : ∀ c ∈ t.children, ∃ slot, SlotOf cs c slot := by
      intro c child
      refine exists_slotOf distinct into child fun inner chosen => ?_
      have below := into.under distinct child inner
      exact ih c child (distinct_child distinct c child) inner (container_of_into below chosen) below
    have tokens := children_tokens_nodup distinct
    choose slot spec using exists_keySlot distinct into slots
    obtain ⟨base, done, read, keys⟩ :=
      placeEach_spec (m := []) into.placements_filled fun key => (spec key).placed
    refine ⟨base, done, fun trail => ?_⟩
    rw [withoutAxes, withChoices_mapping _ container, rebuilt_eq _ container]
    let added := entriesOf t.children fun c => left? (fun _ => none) c.1 c.2 c.2.withoutAxes
    let whole := entriesOf t.children (rebuiltChild? cs)
    have uniqueAdded : (Mapping.keys added).Nodup := nodup_keys_entriesOf _ tokens
    have fits : ∀ e ∈ added, ∀ b, Mapping.get? e.1 base = some b →
        ∀ trail, Tree.addAt e.2 b trail = .ok ((Mapping.get? e.1 whole).getD .null) := by
      rintro ⟨key, value⟩ member b found trail
      obtain ⟨c, child, rfl, kept⟩ := mem_entriesOf _ |>.mp member
      rw [get?_entriesOf _ tokens child]
      exact ((spec _).ofChild c child rfl).addAt kept ((read _).symm.trans found) trail
    obtain ⟨filled, fill, filledKeys, filledRead⟩ :=
      addEntries_spec (fun key => (Mapping.get? key whole).getD .null) trail uniqueAdded fits
    have result : leading cs.leads whole = filled := by
      refine ext_get? ?_ (nodup_keys_leading _ (nodup_keys_entriesOf _ tokens)) fun key => ?_
      · have baseKeys : Mapping.keys base = cs.leads.eraseDups := by simpa [leads] using keys
        rw [filledKeys, keys_rebuilt distinct into, baseKeys]
        simp only [List.mem_eraseDups, added]
      · rw [get?_leading, filledRead, read]
        by_cases known : ∃ c ∈ t.children, c.1.token = key
        · obtain ⟨c, child, rfl⟩ := known
          rw [get?_entriesOf _ tokens child, get?_entriesOf _ tokens child]
          refine (((spec _).ofChild c child rfl).filledUnder ?_).symm
          rw [get?_entriesOf _ tokens child]
        · have absent : ∀ c ∈ t.children, c.1.token ≠ key := fun c child same =>
            known ⟨c, child, same⟩
          rw [get?_entriesOf_of_absent _ absent, get?_entriesOf_of_absent _ absent,
            (spec key).ofNone absent]
          rfl
    rw [Tree.addAt, fill, ← result]
    rfl

end Passes

end Tree

end ConfigSweep
