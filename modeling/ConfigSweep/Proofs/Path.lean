import ConfigSweep.Proofs.Mapping
import ConfigSweep.Tree.Path

/-!
# Laws of paths

What was put where a path leads is found there, and only the last write to a node counts. A path
that ends in a step is followed in two parts.
-/

namespace ConfigSweep.Tree

section Steps

variable {t c : Tree} {step : Step}

theorem child?_setChild (there : t.child? step = some c) (value : Tree) :
    (t.setChild step value).child? step = some value := by
  cases t with
  | list items =>
    cases step with
    | key name => cases there
    | index position =>
      have within : position < items.length := (List.getElem?_eq_some_iff.mp there).1
      simp [setChild, child?, within]
  | mapping entries =>
    cases step with
    | key name =>
      have has : Mapping.has name entries = true := Option.isSome_iff_exists.mpr ⟨c, there⟩
      rw [setChild, if_pos has, child?, Mapping.get?_insert, if_pos rfl]
    | index position => cases there
  | _ => cases there

theorem child?_leaf {t : Tree} (leaf : t.isLeaf = true) (step : Step) : t.child? step = none := by
  cases t with
  | list items => cases leaf
  | mapping m => cases leaf
  | _ => cases step <;> rfl

theorem setChild_self (there : t.child? step = some c) : t.setChild step c = t := by
  cases t with
  | list items =>
    cases step with
    | key name => cases there
    | index position =>
      obtain ⟨within, rfl⟩ := List.getElem?_eq_some_iff.mp there
      rw [setChild, List.set_getElem_self]
  | mapping entries =>
    cases step with
    | key name =>
      have has : Mapping.has name entries = true := Option.isSome_iff_exists.mpr ⟨c, there⟩
      rw [setChild, if_pos has, Mapping.insert_of_get? there]
    | index position => cases there
  | _ => cases there

theorem setChild_setChild (there : t.child? step = some c) (first second : Tree) :
    (t.setChild step first).setChild step second = t.setChild step second := by
  cases t with
  | list items =>
    cases step with
    | key name => cases there
    | index position => rw [setChild, setChild, setChild, List.set_set]
  | mapping entries =>
    cases step with
    | key name =>
      have has : Mapping.has name entries = true := Option.isSome_iff_exists.mpr ⟨c, there⟩
      have still : Mapping.has name (Mapping.insert name first entries) = true := by
        rw [Mapping.has, Mapping.get?_insert, if_pos rfl]
        rfl
      rw [setChild, if_pos has, setChild, if_pos still, setChild, if_pos has,
        Mapping.insert_insert]
    | index position => cases there
  | _ => cases there

end Steps

section Paths

variable {root t r : Tree} {path : Path}

theorem exists_replace? (there : root.get? path = some t) (value : Tree) :
    ∃ r, replace? value path root = some r := by
  induction path generalizing root with
  | nil => exact ⟨value, rfl⟩
  | cons step rest ih =>
    obtain ⟨c, toChild, below⟩ := Option.bind_eq_some_iff.mp there
    obtain ⟨r, done⟩ := ih below
    exact ⟨_, Option.bind_eq_some_iff.mpr ⟨c, toChild, Option.bind_eq_some_iff.mpr ⟨r, done, rfl⟩⟩⟩

theorem exists_get? {value : Tree} (done : replace? value path root = some r) :
    ∃ t, root.get? path = some t := by
  induction path generalizing root r with
  | nil => exact ⟨root, rfl⟩
  | cons step rest ih =>
    obtain ⟨c, toChild, done⟩ := Option.bind_eq_some_iff.mp done
    obtain ⟨c', below, -⟩ := Option.bind_eq_some_iff.mp done
    obtain ⟨t, there⟩ := ih below
    exact ⟨t, Option.bind_eq_some_iff.mpr ⟨c, toChild, there⟩⟩

theorem replace?_self (there : root.get? path = some t) : replace? t path root = some root := by
  induction path generalizing root with
  | nil => exact there.symm
  | cons step rest ih =>
    obtain ⟨c, toChild, below⟩ := Option.bind_eq_some_iff.mp there
    refine Option.bind_eq_some_iff.mpr ⟨c, toChild, Option.bind_eq_some_iff.mpr ⟨c, ih below, ?_⟩⟩
    exact congrArg some (setChild_self toChild)

theorem get?_replace? {value : Tree} (done : replace? value path root = some r) :
    r.get? path = some value := by
  induction path generalizing root r with
  | nil => exact done.symm
  | cons step rest ih =>
    obtain ⟨c, toChild, done⟩ := Option.bind_eq_some_iff.mp done
    obtain ⟨c', below, done⟩ := Option.bind_eq_some_iff.mp done
    obtain rfl := Option.some.inj done
    exact Option.bind_eq_some_iff.mpr ⟨c', child?_setChild toChild c', ih below⟩

theorem replace?_replace? {first : Tree} (done : replace? first path root = some r) (second : Tree) :
    replace? second path r = replace? second path root := by
  induction path generalizing root r with
  | nil => rfl
  | cons step rest ih =>
    obtain ⟨c, toChild, done⟩ := Option.bind_eq_some_iff.mp done
    obtain ⟨c', below, done⟩ := Option.bind_eq_some_iff.mp done
    obtain rfl := Option.some.inj done
    rw [replace?, replace?, child?_setChild toChild, toChild]
    dsimp only [bind, Option.bind]
    rw [ih below]
    cases replace? second rest c with
    | none => rfl
    | some updated => exact congrArg some (setChild_setChild toChild c' updated)

theorem get?_append (front back : Path) (root : Tree) :
    root.get? (front ++ back) = (root.get? front).bind (get? back) := by
  induction front generalizing root with
  | nil => rfl
  | cons first rest ih =>
    rw [List.cons_append, get?, get?, Option.bind_assoc]
    exact Option.bind_congr fun c _ => ih c

theorem get?_concat (path : Path) (step : Step) (root : Tree) :
    root.get? (path ++ [step]) = (root.get? path).bind fun t => t.child? step := by
  rw [get?_append]
  refine Option.bind_congr fun t _ => ?_
  rw [get?]
  cases t.child? step <;> rfl

theorem replace?_concat (there : root.get? path = some t) {c : Tree} {step : Step}
    (below : t.child? step = some c) (value : Tree) :
    replace? value (path ++ [step]) root = replace? (t.setChild step value) path root := by
  induction path generalizing root with
  | nil =>
    obtain rfl := Option.some.inj there
    exact Option.bind_eq_some_iff.mpr ⟨c, below, rfl⟩
  | cons first rest ih =>
    obtain ⟨d, toChild, inner⟩ := Option.bind_eq_some_iff.mp there
    rw [List.cons_append, replace?, replace?, toChild]
    dsimp only [bind, Option.bind]
    rw [ih inner]

end Paths

end ConfigSweep.Tree
