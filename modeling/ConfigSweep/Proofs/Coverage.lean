import ConfigSweep.Proofs.Targets
import ConfigSweep.Proofs.Undisguised
import Mathlib.Data.List.Perm.Subperm

/-!
# Positions that are covered

A mapping from position tokens is a list in disguise, and is revealed when its keys cover the
positions from zero on. Digits may begin with zeros, so several tokens can stand for one position.
Then the last of them counts and the entries of the others are lost. Without such tokens revealing
is exact: the list holds every entry once, and a mapping that has gaps is left as it is.
-/

namespace ConfigSweep

namespace Mapping

variable {α : Type} {m : Mapping α} {items : List α}

/-- The positions that the keys stand for, in the order of the entries. -/
def positions (m : Mapping α) : List Nat :=
  m.filterMap fun e => Position.ofToken? e.1

/-- The items are at each position the value of the last key for it. -/
def Lists (m : Mapping α) (items : List α) : Prop :=
  ∀ position, items[position]? = (lastAt? position m).map Prod.snd

/-- There are as many items as entries, and each entry has its value at the position of its key. -/
structure ListsAll (m : Mapping α) (items : List α) : Prop where
  count : items.length = m.length
  placed : ∀ e ∈ m, ∃ position, Position.ofToken? e.1 = some position ∧ items[position]? = some e.2

/-- The sparse list of a mapping is listed as the items that the mapping lists. -/
theorem toList_ofEntries : (SparseList.ofEntries m).toList = .ok items ↔ m.Lists items := by
  rw [SparseList.toList_eq_ok_iff (SparseList.ascending_ofEntries m)]
  simp only [SparseList.at?_ofEntries]
  exact Iff.rfl

theorem positions_cons {e : String × α} {position : Nat}
    (token : Position.ofToken? e.1 = some position) (rest : Mapping α) :
    positions (e :: rest) = position :: positions rest :=
  List.filterMap_cons_some token

theorem mem_positions {position : Nat} :
    position ∈ positions m ↔ ∃ e ∈ m, Position.ofToken? e.1 = some position :=
  List.mem_filterMap

theorem lastAt?_eq_none {position : Nat} : lastAt? position m = none ↔ position ∉ positions m := by
  rw [SparseList.lastAt?_eq, List.getLast?_eq_none_iff, List.filter_eq_nil_iff, mem_positions]
  simp [Step.ofToken_eq_index]

theorem length_positions (tokens : ∀ e ∈ m, Position.isToken e.1 = true) :
    (positions m).length = m.length :=
  List.filterMap_length_eq_length.mpr tokens

/-- The value of the only key for a position is found there. -/
theorem lastAt?_of_mem (unique : (positions m).Nodup) {e : String × α} (member : e ∈ m)
    {position : Nat} (token : Position.ofToken? e.1 = some position) :
    lastAt? position m = some e := by
  induction m with
  | nil => cases member
  | cons d rest ih =>
    rw [lastAt?]
    rcases List.mem_cons.mp member with rfl | later
    · rw [positions_cons token, List.nodup_cons] at unique
      rw [lastAt?_eq_none.mpr unique.1, if_pos token, Option.none_or]
    · have unique' : (positions rest).Nodup :=
        unique.sublist ((List.sublist_cons_self d rest).filterMap _)
      rw [ih unique' later, Option.some_or]

namespace Lists

theorem mem_positions (lists : m.Lists items) {position : Nat} :
    position ∈ positions m ↔ position < items.length := by
  rw [← not_iff_not, ← lastAt?_eq_none, Nat.not_lt, ← List.getElem?_eq_none_iff, lists,
    Option.map_eq_none_iff]

theorem length_le (lists : m.Lists items) : items.length ≤ m.length := by
  have among : List.range items.length ⊆ positions m := fun position member =>
    lists.mem_positions.mpr (List.mem_range.mp member)
  have fewer := (List.Nodup.subperm List.nodup_range among).length_le
  rw [List.length_range] at fewer
  exact fewer.trans (List.length_filterMap_le _ _)

theorem perm (lists : m.Lists items) (unique : (positions m).Nodup) :
    (positions m).Perm (List.range items.length) := by
  rw [List.perm_ext_iff_of_nodup unique List.nodup_range]
  intro position
  rw [lists.mem_positions, List.mem_range]

/-- No entry is lost when no two keys stand for one position. -/
theorem all (lists : m.Lists items) (unique : (positions m).Nodup)
    (tokens : ∀ e ∈ m, Position.isToken e.1 = true) : m.ListsAll items where
  count := by
    have size := (lists.perm unique).length_eq
    rw [length_positions tokens, List.length_range] at size
    exact size.symm
  placed e member := by
    obtain ⟨position, token⟩ := Option.isSome_iff_exists.mp (tokens e member)
    exact ⟨position, token, by rw [lists, lastAt?_of_mem unique member token, Option.map_some]⟩

end Lists

/-- A mapping that covers the positions below some number lists items. -/
theorem exists_lists {count : Nat} (covers : ∀ position, position ∈ positions m ↔ position < count) :
    ∃ items, m.Lists items := by
  have found : ∀ position, position < count → ∃ e, lastAt? position m = some e := by
    intro position within
    refine Option.ne_none_iff_exists'.mp fun absent => ?_
    exact lastAt?_eq_none.mp absent ((covers position).mpr within)
  choose entry value using found
  refine ⟨List.ofFn fun i : Fin count => (entry i i.isLt).2, fun position => ?_⟩
  rw [List.getElem?_ofFn]
  split
  · next within => rw [value position within, Option.map_some]
  · next beyond =>
    rw [lastAt?_eq_none.mpr fun member => beyond ((covers position).mp member), Option.map_none]

/-- As many positions below a number as the number says are all of them. -/
theorem perm_range_of_lt (unique : (positions m).Nodup)
    (within : ∀ position ∈ positions m, position < (positions m).length) :
    (positions m).Perm (List.range (positions m).length) := by
  have among := List.Nodup.subperm unique fun position member =>
    List.mem_range.mpr (within position member)
  exact among.perm_of_length_le (Nat.le_of_eq List.length_range)

theorem lists_of_perm {count : Nat} (covered : (positions m).Perm (List.range count)) :
    ∃ items, m.Lists items :=
  exists_lists fun _ => covered.mem_iff.trans List.mem_range

/-- Items that hold every entry are those that the mapping lists. -/
theorem ListsAll.lists (all : m.ListsAll items) (unique : (positions m).Nodup) : m.Lists items := by
  have tokens : ∀ e ∈ m, Position.isToken e.1 = true := fun e member => by
    obtain ⟨position, token, -⟩ := all.placed e member
    exact Option.isSome_of_eq_some token
  have found : ∀ position ∈ positions m, items[position]? = (lastAt? position m).map Prod.snd := by
    intro position member
    obtain ⟨e, inside, token⟩ := mem_positions.mp member
    obtain ⟨own, token', placed⟩ := all.placed e inside
    obtain rfl := Option.some.inj (token.symm.trans token')
    rw [placed, lastAt?_of_mem unique inside token, Option.map_some]
  -- A position beyond the items would be one that the mapping has no value for.
  have within : ∀ position ∈ positions m, position < (positions m).length := by
    intro position member
    have here := found position member
    rw [length_positions tokens, ← all.count]
    by_contra beyond
    rw [List.getElem?_eq_none (Nat.not_lt.mp beyond)] at here
    exact lastAt?_eq_none.mp (Option.map_eq_none_iff.mp here.symm) member
  have covered := perm_range_of_lt unique within
  rw [length_positions tokens, ← all.count] at covered
  intro position
  by_cases inside : position < items.length
  · exact found position (covered.mem_iff.mpr (List.mem_range.mpr inside))
  · have absent : position ∉ positions m := fun member =>
      inside (List.mem_range.mp (covered.mem_iff.mp member))
    rw [List.getElem?_eq_none (Nat.not_lt.mp inside), lastAt?_eq_none.mpr absent, Option.map_none]

end Mapping

namespace Tree

variable {m : Mapping Tree}

section Positional

variable (positional : Mapping.isPositional m = true)

include positional

theorem tokens_of_positional : ∀ e ∈ m, Position.isToken e.1 = true :=
  List.all_eq_true.mp (Bool.and_eq_true _ _ ▸ positional).2

/-- A mapping from position tokens is revealed as the list of the items that it lists. -/
theorem reveal_eq_ok_iff {r : Tree} :
    (Tree.mapping m).reveal = .ok r ↔ ∃ items, r = .list items ∧ m.Lists items := by
  rw [reveal_positional positional]
  constructor
  · rintro ⟨-, items, listed, rfl⟩
    exact ⟨items, rfl, Mapping.toList_ofEntries.mp listed⟩
  · rintro ⟨items, rfl, listed⟩
    refine ⟨fun e member position token => ?_, items, Mapping.toList_ofEntries.mpr listed, rfl⟩
    have within := listed.mem_positions.mp (Mapping.mem_positions.mpr ⟨e, member, token⟩)
    exact Nat.lt_of_lt_of_le within listed.length_le

/-- A mapping that is not revealed is left as it is, or empty if each of its positions is below the
number of its entries. -/
theorem left_of_reveal {stopped : Stopped Tree} (failed : (Tree.mapping m).reveal = .error stopped) :
    stopped.left = if ∀ position ∈ m.positions, position < m.length then .mapping []
      else .mapping m := by
  rw [reveal, if_pos positional] at failed
  dsimp only at failed
  split at failed
  · next position beyond =>
    obtain rfl := Except.error.inj failed
    have above := List.find?_some beyond
    rw [decide_eq_true_eq] at above
    refine (if_neg fun within => ?_).symm
    exact Nat.not_lt.mpr above (within position (List.mem_of_find?_eq_some beyond))
  · next inside =>
    split at failed
    · cases failed
    · obtain rfl := Except.error.inj failed
      refine (if_pos fun position member => ?_).symm
      have below := List.find?_eq_none.mp inside position member
      rwa [decide_eq_true_eq, Nat.not_le] at below

end Positional

/-- Revealing leaves every tree alone that is no mapping from position tokens. Such a mapping becomes
the list that has at each position the value of the last key for it; if there is none, then it is
left as it is or, when the number of entries is above all positions, empty. When no two keys stand for
one position, it is revealed if and only if the positions are those below the number of its entries;
then each entry is in the list at its position, and else the mapping is left as it is. -/
theorem reveal_exact (t : Tree) :
    (t.isDisguised = false → t.reveal = .ok t) ∧
    ∀ m : Mapping Tree, t = .mapping m → t.isDisguised = true →
      (∀ r, t.reveal = .ok r ↔ ∃ items, r = .list items ∧ m.Lists items) ∧
      (∀ stopped, t.reveal = .error stopped →
        (∃ position length, stopped.failure.cause = SparseList.gap position length) ∧
        stopped.left = if ∀ position ∈ m.positions, position < m.length then .mapping [] else t) ∧
      (m.positions.Nodup →
        ((∃ r, t.reveal = .ok r) ↔ m.positions.Perm (List.range m.length)) ∧
        (∀ r, t.reveal = .ok r → ∃ items, r = .list items ∧ m.ListsAll items) ∧
        ∀ stopped, t.reveal = .error stopped → stopped.left = t) := by
  refine ⟨reveal_of_not_disguised, ?_⟩
  rintro m rfl positional
  have reveals : ∀ r, (Tree.mapping m).reveal = .ok r ↔ ∃ items, r = .list items ∧ m.Lists items :=
    fun r => reveal_eq_ok_iff positional
  have tokens := tokens_of_positional positional
  have count := Mapping.length_positions tokens
  refine ⟨reveals, fun stopped failed => ⟨reveal_eq_error failed, left_of_reveal positional failed⟩,
    fun unique => ?_⟩
  have covered : (∃ r, (Tree.mapping m).reveal = .ok r) ↔ m.positions.Perm (List.range m.length) := by
    constructor
    · rintro ⟨r, done⟩
      obtain ⟨items, -, listed⟩ := (reveals r).mp done
      exact (listed.all unique tokens).count ▸ listed.perm unique
    · intro perm
      obtain ⟨items, listed⟩ := Mapping.lists_of_perm perm
      exact ⟨_, (reveals _).mpr ⟨items, rfl, listed⟩⟩
  refine ⟨covered, fun r done => ?_, fun stopped failed => ?_⟩
  · obtain ⟨items, rfl, listed⟩ := (reveals r).mp done
    exact ⟨items, rfl, listed.all unique tokens⟩
  · rw [left_of_reveal positional failed, if_neg]
    intro within
    rw [← count] at within
    obtain ⟨r, done⟩ := covered.mpr (count ▸ Mapping.perm_range_of_lt unique within)
    rw [done] at failed
    cases failed

section Tokens

/-- Two tokens for one position, which is below the number of the entries. -/
def twinTokens : Mapping Tree :=
  [("__IDX__1", .str "a"), ("__IDX__01", .str "b")]

def swappedTokens : Mapping Tree :=
  [("__IDX__1", .str "b"), ("__IDX__0", .str "a")]

/-- Of a mapping with two tokens for one position nothing is left when it cannot be revealed. -/
theorem reveal_exact_tokens :
    (∃ stopped, (Tree.mapping twinTokens).reveal = .error stopped ∧ stopped.left = .mapping []) ∧
    ∃ items, (Tree.mapping swappedTokens).reveal = .ok (.list items) ∧ items.length = 2 ∧
      items[0]? = some (.str "a") := by
  obtain ⟨-, stops, -⟩ := (reveal_exact (.mapping twinTokens)).2 _ rfl (by decide)
  obtain ⟨-, -, apart⟩ := (reveal_exact (.mapping swappedTokens)).2 _ rfl (by decide)
  obtain ⟨covered, exact', -⟩ := apart (by decide)
  constructor
  · have failed : ∃ stopped, (Tree.mapping twinTokens).reveal = .error stopped := ⟨_, rfl⟩
    obtain ⟨stopped, failed⟩ := failed
    exact ⟨stopped, failed, (stops stopped failed).2.trans (if_pos (by decide))⟩
  · obtain ⟨r, done⟩ := covered.mpr (by decide)
    obtain ⟨items, rfl, all⟩ := exact' r done
    obtain ⟨position, token, found⟩ := all.placed ("__IDX__0", .str "a") (by simp [swappedTokens])
    have zero : position = 0 := Option.some.inj (token.symm.trans (by decide))
    exact ⟨items, done, all.count, zero ▸ found⟩

end Tokens

end Tree

end ConfigSweep
