import ConfigSweep.Proofs.Slots
import ConfigSweep.Proofs.Split
import ConfigSweep.Proofs.ViewReading

/-!
# Revealing what a split leaves

The remainder of a tree without axes has a mapping in place of each list. Revealing its lists
yields what revealing those of the tree yields, but for empty lists: an empty mapping is never a
list in disguise, so they stay the empty mappings that the split made of them.
-/

namespace ConfigSweep

namespace Tree

mutual

/-- The tree with every empty list as an empty mapping. -/
def withoutEmptyLists : Tree → Tree
  | .list [] => .mapping []
  | .list (t :: ts) => .list (t.withoutEmptyLists :: itemsWithoutEmptyLists ts)
  | .mapping entries => .mapping (entriesWithoutEmptyLists entries)
  | leaf => leaf

def itemsWithoutEmptyLists : List Tree → List Tree
  | [] => []
  | t :: ts => t.withoutEmptyLists :: itemsWithoutEmptyLists ts

def entriesWithoutEmptyLists : List (String × Tree) → List (String × Tree)
  | [] => []
  | (key, t) :: rest => (key, t.withoutEmptyLists) :: entriesWithoutEmptyLists rest

end

section Equations

theorem itemsWithoutEmptyLists_eq (items : List Tree) :
    itemsWithoutEmptyLists items = items.map withoutEmptyLists := by
  induction items with
  | nil => rfl
  | cons t ts ih => rw [itemsWithoutEmptyLists, ih, List.map_cons]

theorem withoutEmptyLists_list {items : List Tree} (filled : items ≠ []) :
    (Tree.list items).withoutEmptyLists = .list (items.map withoutEmptyLists) := by
  cases items with
  | nil => exact absurd rfl filled
  | cons t ts => rw [withoutEmptyLists, itemsWithoutEmptyLists_eq, List.map_cons]

theorem withoutEmptyLists_mapping (entries : List (String × Tree)) :
    (Tree.mapping entries).withoutEmptyLists
      = .mapping (entries.map fun e => (e.1, e.2.withoutEmptyLists)) := by
  rw [withoutEmptyLists]
  refine congrArg Tree.mapping ?_
  induction entries with
  | nil => rfl
  | cons e rest ih => rw [entriesWithoutEmptyLists, ih, List.map_cons]

end Equations

section Shape

/-- Both become an empty mapping when the lists of a tree become mappings. -/
theorem indexed_withoutEmptyLists (t : Tree) : t.withoutEmptyLists.indexed = t.indexed := by
  induction t using children_induction with
  | node t ih =>
    have below : t.AllChildren fun t => t.withoutEmptyLists.indexed = t.indexed := ih
    cases t with
    | list items =>
      by_cases empty : items = []
      · rw [empty]
        rfl
      · rw [withoutEmptyLists_list empty, indexed, indexed, indexedItems_eq, indexedItems_eq,
          List.map_map]
        exact congrArg (fun items => Tree.mapping (Mapping.ofItems items 0))
          (List.map_congr_left (allChildren_list.mp below))
    | mapping entries =>
      rw [withoutEmptyLists_mapping, indexed, indexed, indexedEntries_eq, indexedEntries_eq,
        List.map_map]
      exact congrArg Tree.mapping (List.map_congr_left fun e member =>
        congrArg (Prod.mk e.1) (allChildren_mapping.mp below e member))
    | _ => rfl

theorem listsFilled_withoutEmptyLists (t : Tree) : t.withoutEmptyLists.ListsFilled := by
  induction t using children_induction with
  | node t ih =>
    have below : t.AllChildren fun t => t.withoutEmptyLists.ListsFilled := ih
    cases t with
    | list items =>
      by_cases empty : items = []
      · rw [empty]
        exact ⟨nofun, trivial⟩
      · rw [withoutEmptyLists_list empty]
        refine ⟨fun same => empty (List.map_eq_nil_iff.mp (Tree.list.inj same)), ?_⟩
        rw [everywhereItems_iff, List.forall_mem_map]
        exact allChildren_list.mp below
    | mapping entries =>
      rw [withoutEmptyLists_mapping]
      refine ⟨nofun, ?_⟩
      rw [everywhereEntries_iff, List.forall_mem_map]
      exact allChildren_mapping.mp below
    | _ => exact nofun

theorem listsFit_withoutEmptyLists {t : Tree} (fit : t.ListsFit) : t.withoutEmptyLists.ListsFit := by
  induction t using children_induction with
  | node t ih =>
    have below : t.AllChildren fun t => t.withoutEmptyLists.ListsFit :=
      fun c member => ih c member (fit.child c member)
    cases t with
    | list items =>
      by_cases empty : items = []
      · rw [empty]
        exact ⟨Nat.zero_lt_of_lt fit.1, trivial⟩
      · rw [withoutEmptyLists_list empty]
        refine ⟨?_, ?_⟩
        · show (items.map withoutEmptyLists).length < Word.bound
          rw [List.length_map]
          exact fit.1
        · rw [everywhereItems_iff, List.forall_mem_map]
          exact allChildren_list.mp below
    | mapping entries =>
      rw [withoutEmptyLists_mapping]
      refine ⟨fit.1, ?_⟩
      rw [everywhereEntries_iff, List.forall_mem_map]
      exact allChildren_mapping.mp below
    | _ => exact fit

/-- Only trees with empty lists are changed. -/
theorem withoutEmptyLists_eq_self_iff {t : Tree} : t.withoutEmptyLists = t ↔ t.ListsFilled := by
  constructor
  · exact fun same => same ▸ listsFilled_withoutEmptyLists t
  · intro filled
    induction t using children_induction with
    | node t ih =>
      have below : t.AllChildren fun t => t.withoutEmptyLists = t :=
        fun c member => ih c member (filled.child c member)
      cases t with
      | list items =>
        rw [withoutEmptyLists_list fun empty => filled.1 (congrArg Tree.list empty)]
        exact congrArg Tree.list
          ((List.map_congr_left (allChildren_list.mp below)).trans (List.map_id' _))
      | mapping entries =>
        rw [withoutEmptyLists_mapping]
        exact congrArg Tree.mapping ((List.map_congr_left fun e member =>
          congrArg (Prod.mk e.1) (allChildren_mapping.mp below e member)).trans (List.map_id' _))
      | _ => rfl

end Shape

section Revealing

theorem isPositional_map {α β : Type} (f : α → β) (m : Mapping α) :
    Mapping.isPositional (m.map fun e => (e.1, f e.2)) = Mapping.isPositional m := by
  unfold Mapping.isPositional
  rw [List.isEmpty_map, List.all_map]
  rfl

/-- A list in disguise is one whatever the values are. -/
theorem reveal_withoutEmptyLists {t r : Tree} (done : t.reveal = .ok r) :
    t.withoutEmptyLists.reveal = .ok r.withoutEmptyLists := by
  cases reveal_iff.mp done with
  | itself plain =>
    cases t with
    | mapping m => rw [withoutEmptyLists_mapping, reveal_plain ((isPositional_map _ m).trans plain)]
    | list items => cases items <;> rfl
    | _ => rfl
  | @list m _ positional within lists =>
    obtain ⟨gapless, rfl⟩ := SparseList.toList_eq_ok.mp lists
    have filled : (SparseList.ofEntries m).slots.map Prod.snd ≠ [] :=
      fun none => (SparseList.listed_ofEntries positional).filled (List.map_eq_nil_iff.mp none)
    rw [withoutEmptyLists_mapping, withoutEmptyLists_list filled,
      reveal_positional ((isPositional_map _ m).trans positional)]
    constructor
    · rw [List.forall_mem_map, List.length_map]
      exact within
    · rw [SparseList.ofEntries_map]
      refine ⟨_, SparseList.toList_eq_ok.mpr ⟨?_, rfl⟩, ?_⟩
      · rw [SparseList.checkGapless_mapValues, gapless]
      · simp [SparseList.mapValues, Function.comp_def]

theorem revealAll_withoutEmptyLists {t r : Tree} (done : t.revealAll = .ok r) :
    t.withoutEmptyLists.revealAll = .ok r.withoutEmptyLists := by
  induction t using children_induction generalizing r with
  | node t ih =>
    have below : t.AllChildren fun t => ∀ s, t.revealAll = .ok s →
        t.withoutEmptyLists.revealAll = .ok s.withoutEmptyLists := fun c member s => ih c member
    cases t with
    | list items =>
      obtain ⟨shown, each, rfl⟩ := revealAll_list_eq_ok.mp done
      by_cases empty : items = []
      · obtain rfl := empty
        cases each
        rfl
      · have filled : shown ≠ [] := by
          rintro rfl
          exact empty (List.forall₂_nil_right_iff.mp each)
        rw [withoutEmptyLists_list empty, withoutEmptyLists_list filled]
        refine revealAll_list_eq_ok.mpr ⟨_, ?_, rfl⟩
        rw [List.forall₂_map_left_iff, List.forall₂_map_right_iff]
        exact ((List.forall₂_and_left items shown).mpr ⟨allChildren_list.mp below, each⟩).imp
          fun t s both => both.1 s both.2
    | mapping entries =>
      obtain ⟨shown, each, reveals⟩ := revealAll_mapping_eq_ok.mp done
      rw [withoutEmptyLists_mapping]
      refine revealAll_mapping_eq_ok.mpr ⟨shown.map fun e => (e.1, e.2.withoutEmptyLists), ?_, ?_⟩
      · rw [List.forall₂_map_left_iff, List.forall₂_map_right_iff]
        exact ((List.forall₂_and_left entries shown).mpr ⟨allChildren_mapping.mp below, each⟩).imp
          fun e s both => ⟨both.2.1, both.1 s.2 both.2.2⟩
      · rw [← withoutEmptyLists_mapping]
        exact reveal_withoutEmptyLists reveals
    | _ =>
      obtain rfl := Except.ok.inj done
      rfl

end Revealing

/-- Where no mapping is marked as an axis, the lists of the remainder are revealed whenever those of
the tree are, to the same tree but for its empty lists, which are empty mappings. So it is the same
if and only if it has no empty list. -/
theorem revealAll_remainder {t r : Tree} {split : AxisSplit} (unmarked : t.Unmarked)
    (fit : t.ListsFit) (splits : t.splitAxes = .ok split) (reveals : t.revealAll = .ok r) :
    split.remainder.revealAll = .ok r.withoutEmptyLists ∧
      (split.remainder.revealAll = .ok r ↔ r.ListsFilled) := by
  have remainder : split.remainder = t.withoutEmptyLists.indexed := by
    rw [(splitAxes_spec splits).2.remainder, withoutAxes_eq_indexed t unmarked,
      indexed_withoutEmptyLists]
  have revealed : split.remainder.revealAll = .ok r.withoutEmptyLists := by
    rw [remainder]
    exact revealAll_indexed _ _ (listsFilled_withoutEmptyLists t) (listsFit_withoutEmptyLists fit)
      (revealAll_withoutEmptyLists reveals)
  refine ⟨revealed, ?_⟩
  rw [revealed, Except.ok.injEq, withoutEmptyLists_eq_self_iff]

section Nested

/-- A list of mappings with an empty list inside, beside a list in disguise. -/
def nestedLists : Tree :=
  .mapping [("layers", .list [.mapping [("sizes", .list [.int 8, .int 4])], .list []]),
    ("stack", .mapping [("__IDX__01", .null), ("__IDX__0", .list [.list [.bool true]])])]

def nestedSplit : AxisSplit where
  axes := []
  remainder := .mapping [
    ("layers", .mapping [
      ("__IDX__0", .mapping [("sizes", .mapping [("__IDX__0", .int 8), ("__IDX__1", .int 4)])]),
      ("__IDX__1", .mapping [])]),
    ("stack", .mapping [("__IDX__01", .null),
      ("__IDX__0", .mapping [("__IDX__0", .mapping [("__IDX__0", .bool true)])])])]

def nestedRevealed : Tree :=
  .mapping [("layers", .list [.mapping [("sizes", .list [.int 8, .int 4])], .list []]),
    ("stack", .list [.list [.list [.bool true]], .null])]

theorem revealAll_remainder_nested :
    nestedSplit.remainder.revealAll = .ok nestedRevealed.withoutEmptyLists ∧
      (nestedSplit.remainder.revealAll = .ok nestedRevealed ↔ nestedRevealed.ListsFilled) :=
  revealAll_remainder (t := nestedLists) (by decide) (by decide) (by with_unfolding_all rfl)
    (by with_unfolding_all rfl)

/-- The empty list of a tree comes back as an empty mapping. -/
theorem emptyList_not_restored :
    ∃ split, (Tree.mapping [("a", .list [])]).Unmarked ∧
      (Tree.mapping [("a", .list [])]).splitAxes = .ok split ∧
      (Tree.mapping [("a", .list [])]).revealAll = .ok (.mapping [("a", .list [])]) ∧
      split.remainder.revealAll = .ok (.mapping [("a", .mapping [])]) ∧
      split.remainder.revealAll ≠ .ok (.mapping [("a", .list [])]) :=
  ⟨⟨[], .mapping [("a", .mapping [])]⟩, by decide, by with_unfolding_all rfl,
    by with_unfolding_all rfl, by with_unfolding_all rfl, nofun⟩

end Nested

end Tree

end ConfigSweep
