import ConfigSweep.Proofs.Reorder
import ConfigSweep.Proofs.RestoredUpserts

/-!
# The order of choices

The order in which choices are given decides only in which order the keys that lead to them come
first in the rebuilt tree. Where those keys may trade places, it does not matter for what the
rebuilt tree is read as.
-/

namespace ConfigSweep

namespace Mapping

variable {α β : Type}

section Leading

variable {names names' : List String}

theorem eraseDups_perm (moved : names.Perm names') : names.eraseDups.Perm names'.eraseDups := by
  refine (List.perm_ext_iff_of_nodup (nodup_eraseDups _) (nodup_eraseDups _)).mpr fun key => ?_
  rw [List.mem_eraseDups, List.mem_eraseDups, moved.mem_iff]

/-- Moving the names moves only what they put first. -/
theorem leading_of_perm (moved : names.Perm names') (m : Mapping α) :
    (pick names.eraseDups m).Perm (pick names'.eraseDups m) ∧
      leading names' m = pick names'.eraseDups m ++ m.filter fun e => e.1 ∉ names := by
  refine ⟨(eraseDups_perm moved).filterMap _, congrArg _ (List.filter_congr fun e _ => ?_)⟩
  exact decide_eq_decide.mpr (not_congr moved.mem_iff.symm)

theorem mem_of_mem_keys_pick {m : Mapping α} {key : String} (member : key ∈ keys (pick names.eraseDups m)) :
    key ∈ names := by
  rw [keys_pick] at member
  exact List.mem_eraseDups.mp (List.mem_filter.mp member).1

end Leading

section Related

variable {relation : String × α → String × β → Prop} {m : Mapping α} {n : Mapping β}

/-- Putting keys first keeps entries that correspond to each other in step. -/
theorem forall₂_leading (keys : ∀ d e, relation d e → d.1 = e.1)
    (related : List.Forall₂ relation m n) (names : List String) :
    List.Forall₂ relation (leading names m) (leading names n) := by
  refine List.rel_append ?_ (forall₂_filter related fun d e both => ?_)
  · unfold pick
    induction names.eraseDups with
    | nil => exact .nil
    | cons key rest ih =>
      have values := get?_of_forall₂ keys related key
      rw [List.filterMap_cons, List.filterMap_cons]
      generalize get? key m = first at values ⊢
      generalize get? key n = second at values ⊢
      cases values with
      | some both => exact .cons both ih
      | none => exact ih
  · rw [keys d e both]

end Related

end Mapping

namespace Choices

variable {t : Tree} {cs cs' : Choices}

theorem at?_perm (moved : cs.Perm cs') (different : (cs.map Prod.fst).Nodup) (path : Path) :
    cs.at? path = cs'.at? path := by
  have different' := (moved.map Prod.fst).nodup_iff.mp different
  refine Option.ext fun value => ?_
  rw [at?_eq_some_iff different, at?_eq_some_iff different', moved.mem_iff]

theorem leads_perm (moved : cs.Perm cs') : cs.leads.Perm cs'.leads :=
  (moved.map _).filterMap _

theorem along_perm (moved : cs.Perm cs') (path : Path) : (cs.along path).Perm (cs'.along path) := by
  induction path generalizing cs cs' with
  | nil => exact moved
  | cons step rest ih => exact ih (moved.filterMap _)

theorem Into.perm (into : cs.Into t) (moved : cs.Perm cs') : cs'.Into t where
  axes := fun c member => into.axes c (moved.mem_iff.mpr member)
  different := (moved.map Prod.fst).nodup_iff.mp into.different

theorem along_concat (path : Path) (step : Step) (cs : Choices) :
    cs.along (path ++ [step]) = (cs.along path).under step := by
  induction path generalizing cs with
  | nil => rfl
  | cons first rest ih => exact ih _

end Choices

namespace Tree

/-- In the restored form of a tree, keys that lead on may trade places in every mapping. -/
def Swappable (leads : Path → List String) (t restored : Tree) : Prop :=
  ∀ path d entries, t.outside? path = some d → d.isAxis = false →
    restored.get? (path.map fun step => .key step.token) = some (.mapping entries) →
      ∀ k ∈ leads path, ∀ l ∈ leads path, k ≠ l →
        Interchange entries (path.getLast? = some (.key Keyword.upsert)) k l

section Rebuilt

open Choices

variable {evaluator : Evaluator} {t d : Tree} {cs cs' : Choices}

/-- The tokens of a path outside axes lead to the node that is rebuilt from the choices below it. -/
theorem rebuilt_get? (distinct : t.Distinct) (plain : d.isAxis = false) {path : Path}
    (found : t.outside? path = some d) :
    (t.rebuilt cs).get? (path.map fun step => .key step.token) = some (d.rebuilt (cs.along path)) := by
  induction path generalizing t cs with
  | nil =>
    obtain rfl := Option.some.inj found
    rfl
  | cons step rest ih =>
    obtain ⟨-, c, child, plainChild, inside⟩ := exists_child_of_outside? distinct plain found
    obtain ⟨entries, shape, -⟩ := rebuilt_mapping distinct (container_of_child child) cs
    have field := rebuilt_field? cs distinct child plainChild
    rw [shape] at field ⊢
    exact Option.bind_eq_some_iff.mpr ⟨_, field, ih (distinct_child distinct _ child) inside⟩

theorem eq_key_of_token {step : Step} (named : step.token = Keyword.upsert) :
    step = .key Keyword.upsert := by
  cases step with
  | key name => exact congrArg Step.key named
  | index position =>
    have start := congrArg (fun text => text.toList.head?) named
    have underscore : Position.stem.toList.head? = some '_' := rfl
    simp [Step.token, Position.token, underscore] at start
    exact absurd start (by decide)

theorem outside?_child (distinct : t.Distinct) (plain : t.isAxis = false) {c : Step × Tree}
    (child : c ∈ t.children) : t.outside? [c.1] = some c.2 := by
  rw [outside?, if_neg (by simpa using plain), (mem_children distinct).mp child]
  rfl

theorem forall₂_entriesOf {relation : String × Tree → String × Tree → Prop}
    {children : List (Step × Tree)} {value? value?' : Step × Tree → Option Tree}
    (related : ∀ c ∈ children, Option.Rel (fun a b => relation (c.1.token, a) (c.1.token, b))
      (value? c) (value?' c)) :
    List.Forall₂ relation (entriesOf children value?) (entriesOf children value?') := by
  induction children with
  | nil => exact .nil
  | cons c rest ih =>
    rw [List.forall_mem_cons] at related
    have here := related.1
    unfold entriesOf at ih ⊢
    rw [List.flatMap_cons, List.flatMap_cons]
    generalize value? c = first at here ⊢
    generalize value?' c = second at here ⊢
    cases here with
    | some both => exact .cons both (ih related.2)
    | none => exact ih related.2

/-- Every node that is rebuilt from choices is read alike whatever the order of the choices, if all
keys that lead to choices may trade places. -/
theorem readsLike_below (unordered : evaluator.Unordered) (distinct : t.Distinct) (into : cs.Into t)
    (moved : cs.Perm cs')
    (free : t.Swappable (fun path => (cs.along path).leads) (t.rebuilt cs)) (plain : d.isAxis = false)
    {path : Path} (found : t.outside? path = some d) :
    (d.rebuilt (cs.along path)).ReadsLike evaluator (path.getLast? = some (.key Keyword.upsert))
      (d.rebuilt (cs'.along path)) := by
  induction d using children_induction generalizing path with
  | node d ih =>
    by_cases leaf : d.isLeaf = true
    · rw [rebuilt_leaf _ leaf, rebuilt_leaf _ leaf]
      exact .refl unordered d
    · rw [Bool.not_eq_true] at leaf
      obtain ⟨distinctBelow, intoBelow⟩ := into.along distinct plain found
      have here : (t.rebuilt cs).get? _ = some (d.rebuilt (cs.along path)) :=
        rebuilt_get? distinct plain found
      have movedBelow := along_perm moved path
      rw [rebuilt_eq _ leaf] at here ⊢
      rw [rebuilt_eq _ leaf]
      have unique := Mapping.nodup_keys_leading (cs.along path).leads
        (nodup_keys_entriesOf (rebuiltChild? (cs.along path)) (children_tokens_nodup distinctBelow))
      have tradable := free path d _ found plain here
      obtain ⟨front, same⟩ := Mapping.leading_of_perm (leads_perm movedBelow)
        (entriesOf d.children (rebuiltChild? (cs.along path)))
      -- first the leading keys change places, then the values under all keys change
      have reordered := ReadsLike.perm unordered front unique fun k first l second => tradable k
        (Mapping.mem_of_mem_keys_pick first) l (Mapping.mem_of_mem_keys_pick second)
      rw [← same] at reordered
      refine reordered.trans (.mapping unordered ?_)
      refine Mapping.forall₂_leading (fun _ _ both => both.1) (forall₂_entriesOf fun c child => ?_) _
      cases axis : c.2.isAxis with
      | true =>
        rw [rebuiltChild?, rebuiltChild?, left?_axis _ _ _ axis, left?_axis _ _ _ axis,
          at?_perm movedBelow intoBelow.different]
        cases (cs'.along path).at? [c.1] with
        | none => exact .none
        | some value => exact .some ⟨rfl, .refl unordered value⟩
      | false =>
        rw [rebuiltChild?, rebuiltChild?, left?_plain _ _ _ axis, left?_plain _ _ _ axis]
        have onward : t.outside? (path ++ [c.1]) = some c.2 := by
          rw [outside?_append, found, Option.bind_some]
          exact outside?_child distinctBelow plain child
        have below := ih c child axis onward
        rw [along_concat, along_concat, List.getLast?_concat] at below
        exact .some ⟨rfl, below.view, below.node, fun named =>
          below.upserts (congrArg some (eq_key_of_token named))⟩

end Rebuilt

section Views

theorem Interchange.of_view {m n : Mapping Tree} (same : viewEntries m = viewEntries n)
    {asUpserts : Prop} {k l : String} (free : Interchange m asUpserts k l) :
    Interchange n asUpserts k l where
  apart := free.apart
  ranked := by
    rw [← isPositional_of_view same]
    exact free.ranked
  calm := by
    intro keyed plain plain' t found
    rw [← isPositional_of_view same] at keyed
    obtain ⟨u, other, view⟩ := get?_of_view same.symm found
    exact (free.calm keyed plain plain' u other).of_view view.symm
  script := by
    intro named a member plain
    obtain ⟨d, inside, key, view⟩ := mem_of_view same member
    rw [← key] at plain ⊢
    obtain ⟨callFree, apart⟩ := free.script named d inside plain
    refine ⟨callFree.of_view view, fun b other plain' => ?_⟩
    obtain ⟨e, among, key', -⟩ := mem_of_view same other
    rw [← key'] at plain' ⊢
    exact apart e among plain'

/-- Whether keys may trade places does not depend on the order in which they are. -/
theorem Swappable.of_view {leads leads' : Path → List String} {restored restored' t : Tree}
    (free : t.Swappable leads restored) (same : restored.SameView restored')
    (fewer : ∀ path, ∀ key ∈ leads' path, key ∈ leads path) : t.Swappable leads' restored' := by
  intro path d entries found plain here k first l second other
  obtain ⟨u, there, view⟩ := get?_path_of_view same.symm here
  obtain ⟨others, rfl, views⟩ := view_mapping view
  exact (free path d others found plain there k (fewer path k first) l (fewer path l second)
    other).of_view views.symm

end Views

end Tree

end ConfigSweep
