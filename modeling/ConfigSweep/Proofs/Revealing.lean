import ConfigSweep.Proofs.View

/-!
# What trees are revealed as

A tree is revealed as itself, or as the list that it stands for: `Tree.RevealedAs` has one rule for
each. Whether a mapping is a list in disguise, and which list it is, can be told from its view: at
every position the last of the keys that stand for it counts. So trees of one view reveal the same
lists.
-/

namespace ConfigSweep

theorem Step.ofToken_eq_index {key : String} {position : Nat} :
    Step.ofToken key = .index position ↔ Position.ofToken? key = some position := by
  unfold Step.ofToken
  cases Position.ofToken? key <;> simp

namespace SparseList

variable {α β : Type}

theorem lastAt?_eq (position : Nat) (m : Mapping α) : Mapping.lastAt? position m
    = (m.filter fun e => Step.ofToken e.1 = .index position).getLast? := by
  induction m with
  | nil => rfl
  | cons e rest ih =>
    rw [Mapping.lastAt?, ih]
    by_cases here : Position.ofToken? e.1 = some position
    · rw [List.filter_cons_of_pos (by simpa using Step.ofToken_eq_index.mpr here), List.getLast?_cons,
        if_pos here]
      cases (rest.filter fun e => Step.ofToken e.1 = .index position).getLast? <;> rfl
    · rw [List.filter_cons_of_neg (by simpa [Step.ofToken_eq_index] using here), if_neg here,
        Option.or_none]

theorem checkGapless_mapValues (f : α → β) (s : SparseList α) :
    (s.mapValues f).checkGapless = s.checkGapless :=
  checkGapless_congr (by simp [mapValues, Function.comp_def])

end SparseList

namespace Tree

section Reveal

variable {m n : Mapping Tree} {t u : Tree}

theorem ofEntries_of_view (same : viewEntries m = viewEntries n) :
    (SparseList.ofEntries m).mapValues view = (SparseList.ofEntries n).mapValues view := by
  rw [← SparseList.ofEntries_map, ← SparseList.ofEntries_map]
  refine SparseList.ext_at? (SparseList.ascending_ofEntries _) (SparseList.ascending_ofEntries _)
    fun position => ?_
  rw [SparseList.at?_ofEntries, SparseList.at?_ofEntries, SparseList.lastAt?_eq,
    SparseList.lastAt?_eq, ← viewEntries_eq, ← viewEntries_eq, same]

theorem reveal_plain (plain : Mapping.isPositional m = false) :
    (Tree.mapping m).reveal = .ok (.mapping m) := by
  rw [reveal, if_neg (by simp [plain])]

/-- A positional mapping is revealed when no position is beyond the number of entries and the
positions leave no gap. -/
theorem reveal_positional (positional : Mapping.isPositional m = true) {r : Tree} :
    (Tree.mapping m).reveal = .ok r ↔
      (∀ e ∈ m, ∀ position, Position.ofToken? e.1 = some position → position < m.length) ∧
        ∃ items, (SparseList.ofEntries m).toList = .ok items ∧ r = .list items := by
  rw [reveal, if_pos positional]
  dsimp only
  split
  · next position beyond =>
    have above := List.find?_some beyond
    rw [decide_eq_true_eq] at above
    obtain ⟨e, member, token⟩ := List.mem_filterMap.mp (List.mem_of_find?_eq_some beyond)
    constructor
    · intro done
      cases done
    · intro both
      have within := both.1 e member position token
      omega
  · next inside =>
    have within : ∀ e ∈ m, ∀ position, Position.ofToken? e.1 = some position →
        position < m.length := by
      intro e member position token
      have none' := List.find?_eq_none.mp inside position
        (List.mem_filterMap.mpr ⟨e, member, token⟩)
      rw [decide_eq_true_eq] at none'
      omega
    cases lists : (SparseList.ofEntries m).toList with
    | ok items =>
      constructor
      · intro done
        exact ⟨within, items, rfl, (Except.ok.inj done).symm⟩
      · rintro ⟨-, others, same, rfl⟩
        rw [Except.ok.inj same]
    | error failure =>
      constructor
      · intro done
        cases done
      · rintro ⟨-, others, same, -⟩
        cases same

/-- The node is a mapping with keys, all of them position tokens. -/
def isDisguised : Tree → Bool
  | .mapping m => Mapping.isPositional m
  | _ => false

theorem reveal_of_not_disguised (plain : t.isDisguised = false) : t.reveal = .ok t := by
  cases t with
  | mapping m => exact reveal_plain plain
  | _ => rfl

/-- A tree and what it is revealed as: itself, or the list that it stands for. -/
inductive RevealedAs : Tree → Tree → Prop where
  | itself {t : Tree} (plain : t.isDisguised = false) : RevealedAs t t
  | list {m : Mapping Tree} {items : List Tree} (positional : Mapping.isPositional m = true)
      (within : ∀ e ∈ m, ∀ position, Position.ofToken? e.1 = some position → position < m.length)
      (lists : (SparseList.ofEntries m).toList = .ok items) : RevealedAs (.mapping m) (.list items)

/-- Trees are revealed exactly by these two rules. -/
theorem reveal_iff {r : Tree} : t.reveal = .ok r ↔ RevealedAs t r := by
  constructor
  · intro done
    cases t with
    | mapping m =>
      cases positional : Mapping.isPositional m with
      | false =>
        rw [reveal_plain positional] at done
        exact Except.ok.inj done ▸ .itself positional
      | true =>
        obtain ⟨within, items, lists, rfl⟩ := (reveal_positional positional).mp done
        exact .list positional within lists
    | _ => exact Except.ok.inj done ▸ .itself rfl
  · intro revealed
    cases revealed with
    | itself plain => exact reveal_of_not_disguised plain
    | list positional within lists => exact (reveal_positional positional).mpr ⟨within, _, lists, rfl⟩

/-- Revealing leaves no node in disguise. -/
theorem isDisguised_of_reveal (done : t.reveal = .ok u) : u.isDisguised = false := by
  cases reveal_iff.mp done with
  | itself plain => exact plain
  | list positional within lists => rfl

theorem isDisguised_of_view (same : t.view = u.view) : t.isDisguised = u.isDisguised := by
  cases t with
  | mapping entries =>
    obtain ⟨others, rfl, views⟩ := view_mapping same
    exact isPositional_of_view views
  | list items =>
    obtain ⟨others, rfl, -⟩ := view_list same
    rfl
  | _ => rw [view_leaf rfl same]

/-- Trees of one view reveal trees of one view. -/
theorem reveal_of_view (same : t.view = u.view) {r : Tree} (done : t.reveal = .ok r) :
    ∃ s, u.reveal = .ok s ∧ r.view = s.view := by
  simp only [reveal_iff] at done ⊢
  cases done with
  | itself plain => exact ⟨u, .itself (isDisguised_of_view same ▸ plain), same⟩
  | @list entries _ positional within lists =>
    obtain ⟨others, rfl, views⟩ := view_mapping same
    obtain ⟨gapless, rfl⟩ := SparseList.toList_eq_ok.mp lists
    have slots := ofEntries_of_view views
    have gapless' : (SparseList.ofEntries others).checkGapless = .ok () := by
      rw [← SparseList.checkGapless_mapValues view, ← slots, SparseList.checkGapless_mapValues,
        gapless]
    refine ⟨.list ((SparseList.ofEntries others).slots.map Prod.snd),
      .list (isPositional_of_view views ▸ positional) (fun e member position token => ?_)
        (SparseList.toList_eq_ok.mpr ⟨gapless', rfl⟩), ?_⟩
    · obtain ⟨d, inside, key, -⟩ := mem_of_view views member
      rw [← length_of_view views]
      exact within d inside position (key ▸ token)
    · have values := congrArg (fun s => s.slots.map Prod.snd) slots
      rw [view, view, viewItems_eq, viewItems_eq]
      simpa [SparseList.mapValues, Function.comp_def] using values

end Reveal

section Everywhere

/-- What can be told from views holds everywhere in a tree when it does in a tree of the same
view. -/
theorem Everywhere.of_view {p : Tree → Prop} (told : ∀ t u : Tree, t.view = u.view → p t → p u) {t : Tree} :
    ∀ {u : Tree}, t.view = u.view → t.Everywhere p → u.Everywhere p := by
  induction t using children_induction with
  | node t ih =>
    intro u same holds
    have here := told t u same holds.here
    cases t with
    | list items =>
      obtain ⟨others, rfl, views⟩ := view_list same
      refine ⟨here, everywhereItems_iff.mpr fun b member => ?_⟩
      obtain ⟨i, found⟩ := List.mem_iff_getElem?.mp member
      have values := congrArg (fun views => views[i]?) views
      rw [List.getElem?_map, List.getElem?_map, found, Option.map_some] at values
      obtain ⟨a, other, view⟩ := Option.map_eq_some_iff.mp values
      obtain ⟨_, child⟩ := exists_child_of_item (List.mem_of_getElem? other)
      exact ih _ child view (holds.child _ child)
    | mapping entries =>
      obtain ⟨others, rfl, views⟩ := view_mapping same
      refine ⟨here, everywhereEntries_iff.mpr fun e member => ?_⟩
      obtain ⟨d, inside, -, view⟩ := mem_of_view views member
      have child := child_of_entry inside
      exact ih _ child view (holds.child _ child)
    | _ =>
      rw [view_leaf rfl same]
      exact holds

end Everywhere

end Tree

end ConfigSweep
