import ConfigSweep.Axis
import ConfigSweep.Proofs.AxisKey
import ConfigSweep.Proofs.Mapping

/-!
# Where axes stand

A path leads to an axis when every node that it passes is no axis itself. `Tree.axisLocations`
lists these paths with the declarations found there, `Tree.withChoices` puts values in the places
of the axes, and splitting a tree yields the one and, for no values, the other.
-/

namespace ConfigSweep.Tree

def isAxis (t : Tree) : Bool :=
  t.axisDeclaration?.isSome

/-- The node that a path leads to without entering an axis. -/
def outside? : Path → Tree → Option Tree
  | [], t => some t
  | step :: rest, t => if t.isAxis then none else (t.child? step).bind (outside? rest)

/-- The declaration of the axis that a path leads to. -/
def axisAt? (path : Path) (t : Tree) : Option (Mapping Tree) :=
  (t.outside? path).bind axisDeclaration?

/-- The items of a list from a position on, each with the step that leads to it. -/
def numbered : List Tree → Nat → List (Step × Tree)
  | [], _ => []
  | t :: ts, position => (.index position, t) :: numbered ts (position + 1)

/-- The nodes one step below, each with the step that leads to it. -/
def children : Tree → List (Step × Tree)
  | .list items => numbered items 0
  | .mapping entries => entries.map fun e => (.key e.1, e.2)
  | _ => []

/-- The locations that a child adds: its own when it is an axis, else those below it. -/
def childLocations (step : Step) (t : Tree) (below : List (Path × Mapping Tree)) :
    List (Path × Mapping Tree) :=
  match t.axisDeclaration? with
  | some declaration => [([step], declaration)]
  | none => below.map fun l => (step :: l.1, l.2)

mutual

/-- The axes below a node in document order, each with the path that leads to it. -/
def axisLocations : Tree → List (Path × Mapping Tree)
  | .list items => itemLocations items 0
  | .mapping entries => entryLocations entries
  | _ => []

def itemLocations : List Tree → Nat → List (Path × Mapping Tree)
  | [], _ => []
  | t :: ts, position =>
    childLocations (.index position) t (axisLocations t) ++ itemLocations ts (position + 1)

def entryLocations : List (String × Tree) → List (Path × Mapping Tree)
  | [] => []
  | (key, t) :: rest => childLocations (.key key) t (axisLocations t) ++ entryLocations rest

end

/-- What becomes of a child: the value chosen for it when it is an axis, else what is below it. -/
def survivor (choose : Path → Option Tree) (step : Step) (t below : Tree) : Mapping Tree :=
  match t.axisDeclaration? with
  | some _ => (choose [step]).toList.map fun value => (step.token, value)
  | none => [(step.token, below)]

mutual

/-- The tree with every axis replaced by the value chosen for its path, or taken out where none is
chosen. A list becomes a mapping that holds what is left under the tokens of the positions. -/
def withChoices (choose : Path → Option Tree) : Tree → Tree
  | .list items => .mapping (itemsWithChoices choose items 0)
  | .mapping entries => .mapping (entriesWithChoices choose entries)
  | leaf => leaf

def itemsWithChoices (choose : Path → Option Tree) : List Tree → Nat → Mapping Tree
  | [], _ => []
  | t :: ts, position =>
    survivor choose (.index position) t
        (withChoices (fun path => choose (.index position :: path)) t)
      ++ itemsWithChoices choose ts (position + 1)

def entriesWithChoices (choose : Path → Option Tree) : List (String × Tree) → Mapping Tree
  | [] => []
  | (key, t) :: rest =>
    survivor choose (.key key) t (withChoices (fun path => choose (.key key :: path)) t)
      ++ entriesWithChoices choose rest

end

/-- The tree without its axes. -/
abbrev withoutAxes (t : Tree) : Tree :=
  t.withChoices fun _ => none

mutual

/-- Every key of a mapping that stands outside axes has the property. -/
def OutsideKeys (p : String → Prop) : Tree → Prop
  | .list items => OutsideItemKeys p items
  | .mapping entries => (Tree.mapping entries).isAxis ∨ OutsideEntryKeys p entries
  | _ => True

def OutsideItemKeys (p : String → Prop) : List Tree → Prop
  | [] => True
  | t :: ts => t.OutsideKeys p ∧ OutsideItemKeys p ts

def OutsideEntryKeys (p : String → Prop) : List (String × Tree) → Prop
  | [] => True
  | (key, t) :: rest => p key ∧ t.OutsideKeys p ∧ OutsideEntryKeys p rest

end

section Decidability

mutual

def decideDistinct : (t : Tree) → Decidable t.Distinct
  | .list items => decideDistinctItems items
  | .mapping entries =>
    have := decideDistinctEntries entries
    inferInstanceAs (Decidable ((Mapping.keys entries).Nodup ∧ DistinctEntries entries))
  | .null | .bool _ | .int _ | .float _ | .str _ => .isTrue trivial

def decideDistinctItems : (items : List Tree) → Decidable (DistinctItems items)
  | [] => .isTrue trivial
  | t :: ts =>
    have := decideDistinct t
    have := decideDistinctItems ts
    inferInstanceAs (Decidable (t.Distinct ∧ DistinctItems ts))

def decideDistinctEntries : (entries : List (String × Tree)) → Decidable (DistinctEntries entries)
  | [] => .isTrue trivial
  | (_, t) :: rest =>
    have := decideDistinct t
    have := decideDistinctEntries rest
    inferInstanceAs (Decidable (t.Distinct ∧ DistinctEntries rest))

end

instance (t : Tree) : Decidable t.Distinct :=
  t.decideDistinct

variable (p : String → Prop) [DecidablePred p]

mutual

def decideOutsideKeys : (t : Tree) → Decidable (t.OutsideKeys p)
  | .list items => decideOutsideItemKeys items
  | .mapping entries =>
    have := decideOutsideEntryKeys entries
    inferInstanceAs (Decidable ((Tree.mapping entries).isAxis = true ∨ OutsideEntryKeys p entries))
  | .null | .bool _ | .int _ | .float _ | .str _ => .isTrue trivial

def decideOutsideItemKeys : (items : List Tree) → Decidable (OutsideItemKeys p items)
  | [] => .isTrue trivial
  | t :: ts =>
    have := decideOutsideKeys t
    have := decideOutsideItemKeys ts
    inferInstanceAs (Decidable (t.OutsideKeys p ∧ OutsideItemKeys p ts))

def decideOutsideEntryKeys :
    (entries : List (String × Tree)) → Decidable (OutsideEntryKeys p entries)
  | [] => .isTrue trivial
  | (key, t) :: rest =>
    have := decideOutsideKeys t
    have := decideOutsideEntryKeys rest
    inferInstanceAs (Decidable (p key ∧ t.OutsideKeys p ∧ OutsideEntryKeys p rest))

end

instance (t : Tree) : Decidable (t.OutsideKeys p) :=
  decideOutsideKeys p t

end Decidability

section Children

mutual

/-- Induction over trees with one case: a property passes from the children to the node. -/
theorem children_induction {motive : Tree → Prop}
    (node : ∀ t, (∀ c ∈ t.children, motive c.2) → motive t) : ∀ t, motive t
  | .list items => node _ (numbered_induction node items 0)
  | .mapping entries => node _ (entries_induction node entries)
  | .null => node _ (by simp [children])
  | .bool _ => node _ (by simp [children])
  | .int _ => node _ (by simp [children])
  | .float _ => node _ (by simp [children])
  | .str _ => node _ (by simp [children])

theorem numbered_induction {motive : Tree → Prop}
    (node : ∀ t, (∀ c ∈ t.children, motive c.2) → motive t) :
    ∀ (items : List Tree) (position : Nat), ∀ c ∈ numbered items position, motive c.2
  | [], _ => by simp [numbered]
  | t :: ts, position => by
    intro c member
    rcases List.mem_cons.mp member with rfl | later
    · exact children_induction node t
    · exact numbered_induction node ts (position + 1) c later

theorem entries_induction {motive : Tree → Prop}
    (node : ∀ t, (∀ c ∈ t.children, motive c.2) → motive t) :
    ∀ (entries : List (String × Tree)), ∀ c ∈ (Tree.mapping entries).children, motive c.2
  | [] => by simp [children]
  | (key, t) :: rest => by
    intro c member
    rcases List.mem_cons.mp member with rfl | later
    · exact children_induction node t
    · exact entries_induction node rest c later

end

theorem mem_numbered {items : List Tree} {start : Nat} {step : Step} {t : Tree} :
    (step, t) ∈ numbered items start ↔ ∃ i, step = .index (start + i) ∧ items[i]? = some t := by
  induction items generalizing start with
  | nil => simp [numbered]
  | cons u us ih =>
    rw [numbered, List.mem_cons, ih]
    constructor
    · rintro (here | ⟨i, rfl, found⟩)
      · obtain ⟨rfl, rfl⟩ := Prod.mk.inj here
        exact ⟨0, rfl, rfl⟩
      · exact ⟨i + 1, by rw [Nat.add_assoc, Nat.add_comm 1], found⟩
    · rintro ⟨i, rfl, found⟩
      cases i with
      | zero => exact .inl (by simpa using found.symm)
      | succ i => exact .inr ⟨i, by rw [Nat.add_assoc, Nat.add_comm 1], found⟩

theorem exists_child_of_item {items : List Tree} {t : Tree} (member : t ∈ items) :
    ∃ step, (step, t) ∈ (Tree.list items).children := by
  obtain ⟨i, found⟩ := List.mem_iff_getElem?.mp member
  exact ⟨.index (0 + i), mem_numbered.mpr ⟨i, rfl, found⟩⟩

theorem child_of_entry {entries : Mapping Tree} {e : String × Tree} (member : e ∈ entries) :
    (Step.key e.1, e.2) ∈ (Tree.mapping entries).children :=
  List.mem_map.mpr ⟨e, member, rfl⟩

theorem children_leaf {t : Tree} (leaf : t.isLeaf = true) : t.children = [] := by
  cases t with
  | list items => simp [isLeaf, shape] at leaf
  | mapping entries => simp [isLeaf, shape] at leaf
  | _ => rfl

/-- All nodes one step below are good. -/
def AllChildren (good : Tree → Prop) (t : Tree) : Prop :=
  ∀ c ∈ t.children, good c.2

theorem allChildren_list {good : Tree → Prop} {items : List Tree} :
    (Tree.list items).AllChildren good ↔ ∀ t ∈ items, good t := by
  constructor
  · intro each t member
    obtain ⟨_, child⟩ := exists_child_of_item member
    exact each _ child
  · rintro each ⟨step, t⟩ member
    obtain ⟨i, -, found⟩ := mem_numbered.mp member
    exact each t (List.mem_of_getElem? found)

theorem allChildren_mapping {good : Tree → Prop} {m : Mapping Tree} :
    (Tree.mapping m).AllChildren good ↔ ∀ e ∈ m, good e.2 :=
  List.forall_mem_map

theorem allChildren_leaf {good : Tree → Prop} {t : Tree} (leaf : t.isLeaf = true) :
    t.AllChildren good := by
  rw [AllChildren, children_leaf leaf]
  nofun

/-- In a tree without repeated keys the children are what single steps lead to. -/
theorem mem_children {t : Tree} (distinct : t.Distinct) {step : Step} {c : Tree} :
    (step, c) ∈ t.children ↔ t.child? step = some c := by
  cases t with
  | list items =>
    rw [children, mem_numbered]
    cases step with
    | key name => simp [child?]
    | index position => simp [child?]
  | mapping entries =>
    rw [children, List.mem_map]
    cases step with
    | index position => simp [child?]
    | key name =>
      rw [child?]
      constructor
      · rintro ⟨e, member, same⟩
        obtain ⟨names, rfl⟩ := Prod.mk.inj same
        exact Mapping.get?_of_mem distinct.1 (Step.key.inj names ▸ member)
      · exact fun found => ⟨(name, c), Mapping.mem_of_get? found, rfl⟩
  | _ => simp [children, child?]

theorem distinctEntries_iff {entries : List (String × Tree)} :
    DistinctEntries entries ↔ ∀ e ∈ entries, e.2.Distinct := by
  induction entries with
  | nil => simp [DistinctEntries]
  | cons e rest ih => simp [DistinctEntries, ih]

theorem distinct_of_mem_items {items : List Tree} (distinct : DistinctItems items) :
    ∀ t ∈ items, t.Distinct := by
  induction items with
  | nil => simp
  | cons t rest ih =>
    intro u member
    rcases List.mem_cons.mp member with rfl | later
    · exact distinct.1
    · exact ih distinct.2 u later

theorem distinct_child {t : Tree} (distinct : t.Distinct) : ∀ c ∈ t.children, c.2.Distinct := by
  cases t with
  | list items =>
    rintro ⟨step, c⟩ member
    obtain ⟨i, -, found⟩ := mem_numbered.mp member
    exact distinct_of_mem_items distinct c (List.mem_of_getElem? found)
  | mapping entries =>
    intro c member
    obtain ⟨e, inside, rfl⟩ := List.mem_map.mp member
    exact distinctEntries_iff.mp distinct.2 e inside
  | _ => simp [children]

theorem distinct_remove {key : String} {entries : Mapping Tree}
    (distinct : (Tree.mapping entries).Distinct) :
    (Tree.mapping (Mapping.remove key entries)).Distinct := by
  refine ⟨Mapping.nodup_keys_remove distinct.1, distinctEntries_iff.mpr fun e member => ?_⟩
  have kept := (Mapping.remove_perm distinct.1).mem_iff.mp member
  exact distinctEntries_iff.mp distinct.2 e (List.mem_filter.mp kept).1

theorem numbered_keys_nodup (items : List Tree) (start : Nat) :
    ((numbered items start).map Prod.fst).Nodup := by
  induction items generalizing start with
  | nil => simp [numbered]
  | cons t ts ih =>
    rw [numbered, List.map_cons, List.nodup_cons]
    refine ⟨fun member => ?_, ih (start + 1)⟩
    obtain ⟨⟨step, c⟩, inside, same⟩ := List.mem_map.mp member
    obtain ⟨i, atPosition, -⟩ := mem_numbered.mp inside
    have equal := Step.index.inj (atPosition.symm.trans same)
    omega

/-- Different children stand at different steps. -/
theorem children_steps_nodup {t : Tree} (distinct : t.Distinct) :
    (t.children.map Prod.fst).Nodup := by
  cases t with
  | list items => exact numbered_keys_nodup items 0
  | mapping entries =>
    have keys : (children (.mapping entries)).map Prod.fst = (Mapping.keys entries).map Step.key := by
      simp [children, Mapping.keys]
    rw [keys]
    exact distinct.1.map fun _ _ same => Step.key.inj same
  | _ => simp [children]

/-- Among the steps to the children of one node, a token tells the step. -/
theorem token_inj_of_children {t : Tree} {a b : Step × Tree} (first : a ∈ t.children)
    (second : b ∈ t.children) (same : a.1.token = b.1.token) : a.1 = b.1 := by
  cases t with
  | list items =>
    obtain ⟨i, atFirst, -⟩ := mem_numbered.mp first
    obtain ⟨j, atSecond, -⟩ := mem_numbered.mp second
    rw [atFirst, atSecond] at same ⊢
    rw [Position.token_inj same]
  | mapping entries =>
    obtain ⟨d, -, rfl⟩ := List.mem_map.mp first
    obtain ⟨e, -, rfl⟩ := List.mem_map.mp second
    exact congrArg Step.key same
  | _ => simp [children] at first

end Children

end ConfigSweep.Tree
