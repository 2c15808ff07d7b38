import ConfigSweep.Proofs.Mapping
import ConfigSweep.Proofs.Outcome
import ConfigSweep.Specification
import Mathlib.Algebra.BigOperators.Group.List.Basic

/-!
# Grids in lexicographic order

A grid counts through the candidates of its axes like a number through its digits: the last axis
varies fastest, and the place of an assignment in the grid says which candidate each axis has in
it. An axis without candidates refuses the whole grid.
-/

namespace ConfigSweep

/-- Of groups of one size, the one that an item of their list belongs to and its place there. -/
theorem getElem?_flatMap_map {α β γ : Type} (values : List α) (others : List β) (f : α → β → γ)
    (n : Nat) : (values.flatMap fun v => others.map (f v))[n]?
      = values[n / others.length]?.bind fun v => others[n % others.length]?.map (f v) := by
  rcases others.eq_nil_or_concat with rfl | filled
  · simp
  have positive : 0 < others.length := by
    obtain ⟨front, last, rfl⟩ := filled
    simp
  induction values generalizing n with
  | nil => simp
  | cons v rest ih =>
    rw [List.flatMap_cons]
    rcases Nat.lt_or_ge n others.length with here | later
    · rw [List.getElem?_append_left (by simpa using here), Nat.div_eq_of_lt here,
        Nat.mod_eq_of_lt here]
      simp
    · rw [List.getElem?_append_right (by simpa using later), List.length_map, ih,
        Nat.div_eq_sub_div positive later, Nat.mod_eq_sub_mod later]
      rfl

namespace Specification

/-- How many ways there are to choose one candidate for every axis. -/
def size (axes : List (String × List Tree)) : Nat :=
  (axes.map (·.2.length)).prod

theorem size_split {axes : List (String × List Tree)} {i : Nat} {axis : String × List Tree}
    (there : axes[i]? = some axis) :
    size axes = size (axes.drop (i + 1)) * (axis.2.length * size (axes.take i)) := by
  obtain ⟨within, rfl⟩ := List.getElem?_eq_some_iff.mp there
  have parts : axes = axes.take i ++ axes[i] :: axes.drop (i + 1) := by simp
  have product : size axes
      = size (axes.take i) * (axes[i].2.length * size (axes.drop (i + 1))) := by
    unfold size
    conv_lhs => rw [parts]
    rw [List.map_append, List.prod_append, List.map_cons, List.prod_cons]
  rw [product, Nat.mul_comm, Nat.mul_right_comm, Nat.mul_comm]

theorem length_combinations (axes : List (String × List Tree)) :
    (combinations axes).length = size axes := by
  induction axes with
  | nil => rfl
  | cons axis rest ih =>
    rw [combinations, size, List.map_cons, List.prod_cons, ← size, ← ih]
    simp

theorem keys_of_mem_combinations {axes : List (String × List Tree)} {assignment : Mapping Tree}
    (member : assignment ∈ combinations axes) : Mapping.keys assignment = axes.map (·.1) := by
  induction axes generalizing assignment with
  | nil =>
    obtain rfl := List.mem_singleton.mp member
    rfl
  | cons axis rest ih =>
    obtain ⟨v, -, member⟩ := List.mem_flatMap.mp member
    obtain ⟨others, inside, rfl⟩ := List.mem_map.mp member
    rw [Mapping.keys_cons, ih inside, List.map_cons]

/-- Each axis has the candidate that the place of the assignment names, as if the place were
written with a digit for each axis. -/
theorem getElem?_combinations {axes : List (String × List Tree)} {n : Nat}
    {assignment : Mapping Tree} (found : (combinations axes)[n]? = some assignment) {i : Nat}
    {axis : String × List Tree} (there : axes[i]? = some axis) :
    assignment[i]? = (axis.2[n / size (axes.drop (i + 1)) % axis.2.length]?).map (axis.1, ·) := by
  induction axes generalizing n i assignment with
  | nil => cases there
  | cons first rest ih =>
    rw [combinations, getElem?_flatMap_map, length_combinations] at found
    obtain ⟨v, chosen, found⟩ := Option.bind_eq_some_iff.mp found
    obtain ⟨others, behind, rfl⟩ := Option.map_eq_some_iff.mp found
    cases i with
    | zero =>
      obtain rfl := Option.some.inj there
      have within := (List.getElem?_eq_some_iff.mp chosen).1
      rw [Nat.zero_add, List.drop_one, List.tail_cons, Nat.mod_eq_of_lt within, chosen]
      rfl
    | succ i =>
      rw [List.getElem?_cons_succ] at there ⊢
      -- the candidates of the axes in front only add whole rounds of this axis
      rw [List.drop_succ_cons, ih behind there, size_split there, Nat.mod_mul_right_div_self,
        Nat.mod_mul_right_mod]

/-- The candidates of an axis: the items of its list of values or, where no values are declared, its
single value. -/
def listedCandidates (declaration : Tree) : List Tree :=
  match declaration.field? "values" with
  | some values => (values.items?).getD []
  | none => (declaration.field? "value").toList

/-- The candidates of an axis are found exactly if there are any; else it is refused by its name. -/
theorem candidates_cases (name : String) (declaration : Tree) :
    (listedCandidates declaration ≠ [] ∧
      candidates name declaration = .ok (listedCandidates declaration)) ∨
    (listedCandidates declaration = [] ∧
      ∃ problem, candidates name declaration = fail (.notEnumerable name problem)) := by
  cases declaration with
  | mapping entries =>
    have looked : ∀ key, (Tree.mapping entries).field? key = Mapping.get? key entries :=
      fun _ => rfl
    unfold listedCandidates candidates
    dsimp only
    rw [looked, looked]
    generalize Mapping.get? "value" entries = single
    cases Mapping.get? "values" entries with
    | some values =>
      cases values with
      | list items =>
        cases items with
        | nil => exact .inr ⟨rfl, _, rfl⟩
        | cons v rest => exact .inl ⟨nofun, rfl⟩
      | _ => exact .inr ⟨rfl, _, rfl⟩
    | none =>
      cases single with
      | some value => exact .inl ⟨nofun, rfl⟩
      | none => exact .inr ⟨rfl, _, rfl⟩
  | _ => exact .inr ⟨rfl, _, rfl⟩

/-- The axes of a specification with their candidates. -/
def axes (parameters : Mapping Tree) : List (String × List Tree) :=
  parameters.map fun e => (e.1, listedCandidates e.2)

theorem grid_eq_ok {s : Specification} (listed : ∀ e ∈ s.parameters, listedCandidates e.2 ≠ []) :
    s.grid = .ok (combinations (axes s.parameters)) := by
  refine bind_eq_ok.mpr ⟨axes s.parameters, mapM_eq_ok.mpr ?_, rfl⟩
  refine List.forall₂_map_right_iff.mpr (List.forall₂_same.mpr fun e member => ?_)
  rcases candidates_cases e.1 e.2 with ⟨-, found⟩ | ⟨nothing, -⟩
  · exact bind_eq_ok.mpr ⟨_, found, rfl⟩
  · exact absurd nothing (listed e member)

/-- The first axis without candidates refuses the grid. -/
theorem grid_eq_error {s : Specification} {before after : Mapping Tree} {e : String × Tree}
    (split : s.parameters = before ++ e :: after)
    (listed : ∀ b ∈ before, listedCandidates b.2 ≠ []) (nothing : listedCandidates e.2 = []) :
    ∃ problem, s.grid = fail (.notEnumerable e.1 problem) := by
  rcases candidates_cases e.1 e.2 with ⟨some', -⟩ | ⟨-, problem, refused⟩
  · exact absurd nothing some'
  refine ⟨problem, bind_eq_error.mpr (.inl ?_)⟩
  rw [split]
  refine mapM_eq_error_of_first (fun b member => ?_) (bind_eq_error.mpr (.inl refused))
  rcases candidates_cases b.1 b.2 with ⟨-, found⟩ | ⟨none', -⟩
  · exact ⟨_, bind_eq_ok.mpr ⟨_, found, rfl⟩⟩
  · exact absurd none' (listed b member)

/-- The grid is the lexicographic product of the candidates of its axes: the assignment at place `n`
gives every axis the candidate at `n / turn`, counted round and round, where `turn` is the number of
ways to choose for the axes behind it. An axis without candidates refuses the grid, and the first
one is named. -/
theorem grid_lexicographic (s : Specification) :
    ((∀ e ∈ s.parameters, listedCandidates e.2 ≠ []) →
      ∃ assignments, s.grid = .ok assignments ∧ assignments.length = size (axes s.parameters) ∧
        ∀ n assignment, assignments[n]? = some assignment →
          Mapping.keys assignment = Mapping.keys s.parameters ∧
          ∀ i e, s.parameters[i]? = some e → ∃ candidate,
            (listedCandidates e.2)[n / size (axes (s.parameters.drop (i + 1)))
              % (listedCandidates e.2).length]? = some candidate ∧
            assignment[i]? = some (e.1, candidate)) ∧
    ∀ before e after, s.parameters = before ++ e :: after →
      (∀ b ∈ before, listedCandidates b.2 ≠ []) → listedCandidates e.2 = [] →
        ∃ problem, s.grid = fail (.notEnumerable e.1 problem) := by
  refine ⟨fun listed => ⟨_, grid_eq_ok listed, length_combinations _, ?_⟩,
    fun _ _ _ split => grid_eq_error split⟩
  intro n assignment found
  have keys := keys_of_mem_combinations (List.mem_of_getElem? found)
  refine ⟨keys.trans (by simp [axes, Mapping.keys]), fun i e there => ?_⟩
  have axis : (axes s.parameters)[i]? = some (e.1, listedCandidates e.2) := by
    rw [axes, List.getElem?_map, there]
    rfl
  have given := getElem?_combinations found axis
  have behind : (axes s.parameters).drop (i + 1) = axes (s.parameters.drop (i + 1)) :=
    List.map_drop.symm
  have within : n / size (axes (s.parameters.drop (i + 1))) % (listedCandidates e.2).length
      < (listedCandidates e.2).length :=
    Nat.mod_lt _ (List.length_pos_iff.mpr (listed e (List.mem_of_getElem? there)))
  rw [behind, List.getElem?_eq_getElem within] at given
  exact ⟨_, List.getElem?_eq_getElem within, given⟩

section Counting

/-- Axes with two candidates, with a single one and with three. -/
def counting : Specification where
  method := .grid
  parameters := [("lr", .mapping [("values", .list [.int 1, .int 2])]),
    ("model", .mapping [("value", .str "cnn")]),
    ("depth", .mapping [("values", .list [.int 4, .int 5, .int 6]), ("value", .int 0)])]

/-- A range between two axes with candidates, and behind them an axis that declares nothing. -/
def ranged : Specification where
  method := .random
  parameters := [("lr", .mapping [("value", .int 1)]),
    ("depth", .mapping [("min", .int 0), ("max", .int 9)]),
    ("width", .mapping [("values", .list [.int 8])]), ("seed", .null)]

theorem grid_counting :
    (∀ e ∈ counting.parameters, listedCandidates e.2 ≠ []) ∧
    (∃ assignments, counting.grid = .ok assignments ∧ assignments.length = 6 ∧
      ∀ assignment, assignments[4]? = some assignment →
        assignment[0]? = some ("lr", .int 2) ∧ assignment[2]? = some ("depth", .int 5)) ∧
    ∃ problem, ranged.grid = fail (.notEnumerable "depth" problem) := by
  have listed : ∀ e ∈ counting.parameters, listedCandidates e.2 ≠ [] := by
    simp [counting, listedCandidates, Tree.field?, Tree.entries?, Mapping.get?, Tree.items?]
  obtain ⟨assignments, made, length, each⟩ := (grid_lexicographic counting).1 listed
  refine ⟨listed, ⟨assignments, made, length, fun assignment found => ?_⟩, ?_⟩
  · obtain ⟨-, given⟩ := each 4 assignment found
    obtain ⟨first, chosen, there⟩ := given 0 _ rfl
    obtain ⟨third, chosen', there'⟩ := given 2 _ rfl
    obtain rfl : .int 2 = first := Option.some.inj chosen
    obtain rfl : .int 5 = third := Option.some.inj chosen'
    exact ⟨there, there'⟩
  · exact (grid_lexicographic ranged).2 [("lr", .mapping [("value", .int 1)])] _ _ rfl
      (by simp [listedCandidates, Tree.field?, Tree.entries?, Mapping.get?]) rfl

/-- The candidates of an axis, if its single value counted behind anything but a list of values. -/
def candidatesOrValue (declaration : Tree) : List Tree :=
  match declaration.field? "values" with
  | some (.list (v :: vs)) => v :: vs
  | _ => (declaration.field? "value").toList

/-- An axis that lists no values, and has a value too. -/
def emptied : Specification where
  method := .grid
  parameters := [("lr", .mapping [("values", .list []), ("value", .int 3)])]

/-- A declared list of values without items is not made up for by a single value. -/
theorem value_not_behind_values :
    (∀ e ∈ emptied.parameters, candidatesOrValue e.2 = [.int 3]) ∧
      emptied.grid = fail (.notEnumerable "lr" "values list is empty") := by
  refine ⟨fun e member => ?_, rfl⟩
  obtain rfl := List.mem_singleton.mp member
  rfl

end Counting

end Specification

end ConfigSweep
