import ConfigSweep.Merge
import ConfigSweep.Proofs.Reading

/-!
# Trees without the order of keys

`Tree.view` forgets the order in which a mapping lists its keys, but for keys that stand for the
same position of a list, of which the later counts. Trees of one view are read, written and revealed
alike.
-/

namespace ConfigSweep

/-- A tree whose mappings have no order: under a step, the entries whose keys stand for it. -/
inductive View where
  | leaf (value : Tree)
  | list (items : List View)
  | mapping (entries : Step → List (String × View))

namespace Tree

mutual

/-- What is left of a tree when the order of keys is forgotten. -/
def view : Tree → View
  | .list items => .list (viewItems items)
  | .mapping entries => .mapping (viewEntries entries)
  | leaf => .leaf leaf

def viewItems : List Tree → List View
  | [] => []
  | t :: ts => view t :: viewItems ts

def viewEntries : List (String × Tree) → Step → List (String × View)
  | [], _ => []
  | (key, t) :: rest, place =>
    if Step.ofToken key = place then (key, view t) :: viewEntries rest place
    else viewEntries rest place

end

/-- The entries with the views of their values. -/
abbrev viewed (entries : Mapping Tree) : Mapping View :=
  entries.map fun e => (e.1, e.2.view)

theorem viewItems_eq (items : List Tree) : viewItems items = items.map view := by
  induction items with
  | nil => rfl
  | cons t ts ih => rw [viewItems, ih, List.map_cons]

theorem viewEntries_eq (entries : List (String × Tree)) (place : Step) :
    viewEntries entries place = (viewed entries).filter fun e => Step.ofToken e.1 = place := by
  induction entries with
  | nil => rfl
  | cons e rest ih =>
    rw [viewEntries, viewed, List.map_cons]
    by_cases here : Step.ofToken e.1 = place
    · rw [if_pos here, List.filter_cons_of_pos (by simpa using here), ih]
    · rw [if_neg here, List.filter_cons_of_neg (by simpa using here), ih]

section Shapes

variable {t u : Tree}

theorem view_list {items : List Tree} (same : (Tree.list items).view = u.view) :
    ∃ others, u = .list others ∧ items.map view = others.map view := by
  cases u with
  | list others =>
    refine ⟨others, rfl, ?_⟩
    rw [← viewItems_eq, ← viewItems_eq]
    exact View.list.inj same
  | _ => cases same

theorem view_mapping {entries : List (String × Tree)} (same : (Tree.mapping entries).view = u.view) :
    ∃ others, u = .mapping others ∧ viewEntries entries = viewEntries others := by
  cases u with
  | mapping others => exact ⟨others, rfl, View.mapping.inj same⟩
  | _ => cases same

theorem view_leaf (leaf : t.isLeaf = true) (same : t.view = u.view) : u = t := by
  cases t with
  | list items => cases leaf
  | mapping entries => cases leaf
  | _ =>
    cases u with
    | list others => cases same
    | mapping others => cases same
    | _ => exact (View.leaf.inj same).symm

theorem shape_of_view (same : t.view = u.view) : t.shape = u.shape := by
  cases t with
  | list items =>
    obtain ⟨others, rfl, -⟩ := view_list same
    rfl
  | mapping entries =>
    obtain ⟨others, rfl, -⟩ := view_mapping same
    rfl
  | _ => rw [view_leaf rfl same]

end Shapes

section Entries

variable {m n : Mapping Tree}

theorem viewEntries_cons (e : String × Tree) (m : Mapping Tree) (place : Step) :
    viewEntries (e :: m) place
      = if Step.ofToken e.1 = place then (e.1, e.2.view) :: viewEntries m place
        else viewEntries m place := rfl

/-- The value under a key shows in the view. -/
theorem get?_viewEntries (key : String) (m : Mapping Tree) :
    Mapping.get? key (viewEntries m (Step.ofToken key)) = (Mapping.get? key m).map view := by
  induction m with
  | nil => rfl
  | cons e rest ih =>
    rw [viewEntries_cons, Mapping.get?_cons]
    by_cases here : e.1 = key
    · rw [if_pos (congrArg Step.ofToken here), Mapping.get?_cons, if_pos here, if_pos here]
      rfl
    · rw [if_neg here]
      split
      · rw [Mapping.get?_cons, if_neg here, ih]
      · rw [ih]

theorem map_get?_of_view (same : viewEntries m = viewEntries n) (key : String) :
    (Mapping.get? key m).map view = (Mapping.get? key n).map view := by
  rw [← get?_viewEntries, ← get?_viewEntries, same]

theorem get?_of_view (same : viewEntries m = viewEntries n) {key : String} {t : Tree}
    (found : Mapping.get? key m = some t) : ∃ u, Mapping.get? key n = some u ∧ t.view = u.view := by
  have values := map_get?_of_view same key
  rw [found, Option.map_some] at values
  obtain ⟨u, other, view⟩ := Option.map_eq_some_iff.mp values.symm
  exact ⟨u, other, view.symm⟩

theorem has_of_view (same : viewEntries m = viewEntries n) (key : String) :
    Mapping.has key m = Mapping.has key n := by
  have values := congrArg Option.isSome (map_get?_of_view same key)
  rwa [Option.isSome_map, Option.isSome_map] at values

theorem viewEntries_insert (key : String) (value : Tree) (m : Mapping Tree) (place : Step) :
    viewEntries (Mapping.insert key value m) place
      = if Step.ofToken key = place then Mapping.insert key value.view (viewEntries m place)
        else viewEntries m place := by
  induction m with
  | nil => exact viewEntries_cons (key, value) [] place
  | cons e rest ih =>
    obtain ⟨name, old⟩ := e
    rw [Mapping.insert]
    by_cases here : name = key
    · rw [if_pos here, viewEntries_cons, viewEntries_cons, here]
      split
      · rw [Mapping.insert, if_pos rfl]
      · rfl
    · rw [if_neg here, viewEntries_cons, viewEntries_cons, ih]
      by_cases first : Step.ofToken name = place
      · rw [if_pos first, if_pos first]
        split
        · rw [Mapping.insert, if_neg here]
        · rfl
      · rw [if_neg first, if_neg first]

theorem view_insert (same : viewEntries m = viewEntries n) (key : String) {t u : Tree}
    (values : t.view = u.view) :
    viewEntries (Mapping.insert key t m) = viewEntries (Mapping.insert key u n) := by
  funext place
  rw [viewEntries_insert, viewEntries_insert, values, same]

/-- Writes under keys for different places can trade places. -/
theorem view_insert_comm {k l : String} (apart : Step.ofToken k ≠ Step.ofToken l) (t u : Tree)
    (m : Mapping Tree) : viewEntries (Mapping.insert k t (Mapping.insert l u m))
      = viewEntries (Mapping.insert l u (Mapping.insert k t m)) := by
  funext place
  rw [viewEntries_insert, viewEntries_insert, viewEntries_insert, viewEntries_insert]
  by_cases first : Step.ofToken k = place
  · have second : ¬ Step.ofToken l = place := fun other => apart (first.trans other.symm)
    rw [if_pos first, if_neg second, if_neg second, if_pos first]
  · rw [if_neg first, if_neg first]

theorem viewEntries_append (m n : Mapping Tree) (place : Step) :
    viewEntries (m ++ n) place = viewEntries m place ++ viewEntries n place := by
  rw [viewEntries_eq, viewEntries_eq, viewEntries_eq, viewed, List.map_append, List.filter_append]

/-- Lists whose items of every class are the same in the same order hold the same items. -/
theorem perm_of_filter_eq {α κ : Type} [DecidableEq κ] (f : α → κ) {xs ys : List α}
    (same : ∀ c, (xs.filter fun a => f a = c) = ys.filter fun a => f a = c) : xs.Perm ys := by
  induction xs generalizing ys with
  | nil =>
    have empty : ys = [] := by
      refine List.eq_nil_iff_forall_not_mem.mpr fun y member => ?_
      have inside : y ∈ ys.filter fun a => f a = f y := List.mem_filter.mpr ⟨member, by simp⟩
      rw [← same] at inside
      cases inside
    rw [empty]
  | cons x xs ih =>
    have own := same (f x)
    rw [List.filter_cons_of_pos (by simp)] at own
    have inside : x ∈ ys := by
      have member : x ∈ ys.filter fun a => f a = f x := own ▸ List.mem_cons_self
      exact (List.mem_filter.mp member).1
    -- the first item of this class in `ys` is `x`
    have first : ys.find? (fun a => f a = f x) = some x := by
      rw [← List.head?_filter, ← own]
      rfl
    obtain ⟨-, before, after, rfl, others⟩ := List.find?_eq_some_iff_append.mp first
    have rest : xs.Perm (before ++ after) := by
      refine ih fun c => ?_
      have whole := same c
      rw [List.filter_append] at whole ⊢
      by_cases here : f x = c
      · have none' : (before.filter fun a => f a = c) = [] := by
          refine List.filter_eq_nil_iff.mpr fun a member => ?_
          simpa [here] using others a member
        rw [List.filter_cons_of_pos (by simpa using here), none',
          List.filter_cons_of_pos (by simpa using here), List.nil_append] at whole
        rw [none', List.nil_append]
        exact (List.cons.inj whole).2
      · rwa [List.filter_cons_of_neg (by simpa using here),
          List.filter_cons_of_neg (by simpa using here)] at whole
    exact (rest.cons x).trans List.perm_middle.symm

/-- Mappings of one view list the same keys and views. -/
theorem viewed_perm (same : viewEntries m = viewEntries n) : (viewed m).Perm (viewed n) := by
  refine perm_of_filter_eq (fun e => Step.ofToken e.1) fun place => ?_
  rw [← viewEntries_eq, ← viewEntries_eq, same]

theorem length_of_view (same : viewEntries m = viewEntries n) : m.length = n.length := by
  have lengths := (viewed_perm same).length_eq
  rwa [List.length_map, List.length_map] at lengths

theorem keys_of_view (same : viewEntries m = viewEntries n) :
    (Mapping.keys m).Perm (Mapping.keys n) := by
  have keys := (viewed_perm same).map Prod.fst
  rwa [List.map_map, List.map_map] at keys

theorem mem_of_view (same : viewEntries m = viewEntries n) {e : String × Tree} (member : e ∈ n) :
    ∃ d ∈ m, d.1 = e.1 ∧ d.2.view = e.2.view := by
  have inside : (e.1, e.2.view) ∈ viewed n := List.mem_map.mpr ⟨e, member, rfl⟩
  obtain ⟨d, other, equal⟩ := List.mem_map.mp ((viewed_perm same).mem_iff.mpr inside)
  exact ⟨d, other, (Prod.mk.inj equal).1, (Prod.mk.inj equal).2⟩

theorem isPositional_of_view (same : viewEntries m = viewEntries n) :
    Mapping.isPositional m = Mapping.isPositional n :=
  Mapping.isPositional_of_perm (keys_of_view same)

end Entries

section Values

theorem sameItems_of_forall₂ {items others : List Tree}
    (related : List.Forall₂ (fun t u => sameValue t u = true) items others) :
    sameItems items others = true := by
  induction related with
  | nil => rfl
  | cons first rest ih => rw [sameItems, first, ih]; rfl

/-- Trees of one view hold the same value. -/
theorem sameValue_of_view {t u : Tree} (distinct : t.Distinct) (same : t.view = u.view) :
    sameValue t u = true := by
  induction t using children_induction generalizing u with
  | node t ih =>
    cases t with
    | list items =>
      obtain ⟨others, rfl, views⟩ := view_list same
      rw [sameValue]
      have inside : ∀ t ∈ items, t ∈ items := fun _ => id
      have related := (List.forall₂_and_left _ _).mpr ⟨inside, forall₂_of_map_eq views⟩
      refine sameItems_of_forall₂ (related.imp fun a b ⟨inside, view⟩ => ?_)
      obtain ⟨_, child⟩ := exists_child_of_item inside
      exact ih _ child (distinct_child distinct _ child) view
    | mapping entries =>
      obtain ⟨others, rfl, views⟩ := view_mapping same
      refine sameValue_mapping_iff.mpr ⟨length_of_view views, fun e member => ?_⟩
      obtain ⟨b, found, view⟩ := get?_of_view views (Mapping.get?_of_mem distinct.1 member)
      have child := child_of_entry member
      exact ⟨b, found, ih _ child (distinct_child distinct _ child) view⟩
    | _ =>
      rw [view_leaf rfl same]
      exact sameValue_refl _ distinct

end Values

section Paths

variable {t u a b : Tree}

theorem child?_of_view (same : t.view = u.view) {step : Step} (found : t.child? step = some a) :
    ∃ b, u.child? step = some b ∧ a.view = b.view := by
  cases t with
  | list items =>
    obtain ⟨others, rfl, views⟩ := view_list same
    cases step with
    | key name => cases found
    | index position =>
      have here := congrArg (fun views => views[position]?) views
      rw [child?] at found
      rw [List.getElem?_map, List.getElem?_map, found, Option.map_some] at here
      obtain ⟨b, other, view⟩ := Option.map_eq_some_iff.mp here.symm
      exact ⟨b, other, view.symm⟩
  | mapping entries =>
    obtain ⟨others, rfl, views⟩ := view_mapping same
    cases step with
    | key name => exact get?_of_view views found
    | index position => cases found
  | _ => cases found

theorem field?_of_view (same : t.view = u.view) (key : String) :
    (t.field? key).map view = (u.field? key).map view := by
  cases t with
  | mapping entries =>
    obtain ⟨others, rfl, views⟩ := view_mapping same
    exact map_get?_of_view views key
  | list items =>
    obtain ⟨others, rfl, -⟩ := view_list same
    rfl
  | _ => rw [view_leaf rfl same]

theorem setChild_view (same : t.view = u.view) (step : Step) (values : a.view = b.view) :
    (t.setChild step a).view = (u.setChild step b).view := by
  cases t with
  | list items =>
    obtain ⟨others, rfl, views⟩ := view_list same
    cases step with
    | key name => exact same
    | index position =>
      rw [setChild, setChild, view, view, viewItems_eq, viewItems_eq, List.map_set, List.map_set,
        views, values]
  | mapping entries =>
    obtain ⟨others, rfl, views⟩ := view_mapping same
    cases step with
    | key name =>
      rw [setChild, setChild, has_of_view views]
      split
      · rw [view, view, view_insert views name values]
      · exact same
    | index position => exact same
  | _ =>
    rw [view_leaf rfl same]
    rfl

/-- What a path leads to has the same view in trees of one view. -/
theorem get?_path_of_view {path : Path} (same : t.view = u.view) (found : t.get? path = some a) :
    ∃ b, u.get? path = some b ∧ a.view = b.view := by
  induction path generalizing t u with
  | nil =>
    obtain rfl := Option.some.inj found
    exact ⟨u, rfl, same⟩
  | cons step rest ih =>
    obtain ⟨c, toChild, below⟩ := Option.bind_eq_some_iff.mp found
    obtain ⟨d, other, views⟩ := child?_of_view same toChild
    obtain ⟨b, found, view⟩ := ih views below
    exact ⟨b, Option.bind_eq_some_iff.mpr ⟨d, other, found⟩, view⟩

/-- Writing values of one view where a path leads keeps trees in one view. -/
theorem replace?_of_view {path : Path} (same : t.view = u.view) (values : a.view = b.view) {r : Tree}
    (done : replace? a path t = some r) : ∃ s, replace? b path u = some s ∧ r.view = s.view := by
  induction path generalizing t u r with
  | nil =>
    obtain rfl := Option.some.inj done
    exact ⟨b, rfl, values⟩
  | cons step rest ih =>
    obtain ⟨c, toChild, done⟩ := Option.bind_eq_some_iff.mp done
    obtain ⟨c', below, done⟩ := Option.bind_eq_some_iff.mp done
    obtain rfl := Option.some.inj done
    obtain ⟨d, other, views⟩ := child?_of_view same toChild
    obtain ⟨d', below', views'⟩ := ih views below
    refine ⟨u.setChild step d', ?_, setChild_view same step views'⟩
    exact Option.bind_eq_some_iff.mpr ⟨d, other, Option.bind_eq_some_iff.mpr ⟨d', below', rfl⟩⟩

end Paths

end Tree

end ConfigSweep
