import ConfigSweep.Proofs.NestedPatch
import ConfigSweep.Proofs.Operations
import ConfigSweep.Proofs.Revealing

/-!
# Contracts

A contract says what an operation makes of a node that is as it asks for, and for which causes it
may fail there. Contracts of the steps of a merge compose to one for the merge of every patch: the
merge leaves a good node, whatever good means, if nodes with good children become good when they
are settled.
-/

namespace ConfigSweep

namespace Cause

/-- The merge lost the node it works on: it is gone, or no longer what the merge made of it. -/
inductive TargetLost : Cause → Prop where
  | gone (trail : Trail) : TargetLost (.detachedNode trail)
  | notMapping : TargetLost (.shapeMismatch .leaf .mapping)

end Cause

theorem SparseList.checkGapless_eq_error {α : Type} {s : SparseList α} {f : Failure}
    (failed : s.checkGapless = .error f) : ∃ position, f.cause = gap position s.size := by
  unfold checkGapless at failed
  split at failed
  · split at failed
    · obtain rfl := Except.error.inj failed
      exact ⟨_, rfl⟩
    · cases failed
  · cases failed

theorem located_eq_error {α : Type} {trail : Trail} {patch : Tree} {outcome : Outcome α}
    {f : Failure} (failed : Outcome.located trail patch outcome = .error f) :
    ∃ g, outcome = .error g ∧ f.cause = g.cause := by
  unfold Outcome.located at failed
  split at failed
  · cases failed
  · next g =>
    obtain rfl := Except.error.inj failed
    exact ⟨g, rfl, g.cause_locate _ _⟩

namespace Tree

variable {good : Tree → Prop} {t u : Tree}

theorem Everywhere.of_children {p : Tree → Prop} (here : p t)
    (below : t.AllChildren (Everywhere p)) : t.Everywhere p := by
  cases t with
  | list items => exact ⟨here, everywhereItems_iff.mpr (allChildren_list.mp below)⟩
  | mapping m => exact ⟨here, everywhereEntries_iff.mpr (allChildren_mapping.mp below)⟩
  | _ => exact here

/-- Subtrees of a tree with distinct keys have distinct keys. -/
theorem Everywhere.distinct (distinct : t.Distinct) : t.Everywhere Distinct := by
  induction t using children_induction with
  | node t ih => exact .of_children distinct fun c child => ih c child (distinct_child distinct c child)

theorem Everywhere.and {p q : Tree → Prop} {t : Tree} (first : t.Everywhere p)
    (second : t.Everywhere q) : t.Everywhere fun t => p t ∧ q t := by
  induction t using children_induction with
  | node t ih =>
    exact .of_children ⟨first.here, second.here⟩ fun c child =>
      ih c child (first.child c child) (second.child c child)

theorem everywhere_of_forall {p : Tree → Prop} (all : ∀ t, p t) (t : Tree) : t.Everywhere p := by
  induction t using children_induction with
  | node t ih => exact .of_children (all t) ih

theorem Everywhere.imp {p q : Tree → Prop} (step : ∀ t, p t → q t) :
    ∀ {t : Tree}, t.Everywhere p → t.Everywhere q := by
  intro t
  induction t using children_induction with
  | node t ih =>
    intro holds
    exact .of_children (step t holds.here) fun c child => ih c child (holds.child c child)

namespace AllChildren

variable (each : t.AllChildren good)

include each

theorem child? {step : Step} {c : Tree} (there : t.child? step = some c) : good c := by
  cases t with
  | list items =>
    cases step with
    | key name => cases there
    | index position => exact allChildren_list.mp each c (List.mem_of_getElem? there)
  | mapping m =>
    cases step with
    | key name => exact allChildren_mapping.mp each (name, c) (Mapping.mem_of_get? there)
    | index position => cases there
  | _ => cases there

theorem setChild (step : Step) {value : Tree} (fresh : good value) :
    (t.setChild step value).AllChildren good := by
  cases t with
  | list items =>
    cases step with
    | key name => exact each
    | index position =>
      refine allChildren_list.mpr fun s member => ?_
      rcases List.mem_or_eq_of_mem_set member with before | rfl
      · exact allChildren_list.mp each s before
      · exact fresh
  | mapping m =>
    cases step with
    | index position => exact each
    | key name =>
      rw [Tree.setChild]
      split
      · refine allChildren_mapping.mpr fun e member => ?_
        rcases Mapping.mem_of_mem_insert member with rfl | before
        · exact fresh
        · exact allChildren_mapping.mp each e before
      · exact each
  | _ => cases step <;> exact each

/-- Revealing a list in disguise changes no child. -/
theorem reveal (done : t.reveal = .ok u) : u.AllChildren good := by
  cases reveal_iff.mp done with
  | itself plain => exact each
  | list positional within lists =>
    obtain ⟨-, rfl⟩ := SparseList.toList_eq_ok.mp lists
    refine allChildren_list.mpr fun s member => ?_
    obtain ⟨slot, inside, rfl⟩ := List.mem_map.mp member
    obtain ⟨e, among, same⟩ := SparseList.mem_ofEntries inside
    exact same ▸ allChildren_mapping.mp each e among

end AllChildren

/-- A node can only not be revealed for a gap between its positions. -/
theorem reveal_eq_error {stopped : Stopped Tree} (failed : t.reveal = .error stopped) :
    ∃ position length, stopped.failure.cause = SparseList.gap position length := by
  cases t with
  | mapping m =>
    rw [reveal] at failed
    split at failed
    · dsimp only at failed
      split at failed
      · obtain rfl := Except.error.inj failed
        exact ⟨_, _, rfl⟩
      · split at failed
        · cases failed
        · next failure lists =>
          obtain rfl := Except.error.inj failed
          rcases bind_eq_error.mp lists with early | ⟨_, -, late⟩
          · obtain ⟨position, cause⟩ := SparseList.checkGapless_eq_error early
            exact ⟨position, _, cause⟩
          · cases late
    · cases failed
  | _ => cases failed

end Tree

namespace Merge

/-- In place of a node as the operation asks for it puts one as promised, or it fails for an allowed
cause. -/
structure Contract (allowed : Cause → Prop) (pre : Tree → Prop)
    (op : Focus → Tree → Outcome Tree) (post : Tree → Prop) : Prop where
  leaves : ∀ focus {root t r}, root.get? focus.path = some t → pre t → op focus root = .ok r →
    ∃ u, Tree.replace? u focus.path root = some r ∧ post u
  fails : ∀ focus {root t f}, root.get? focus.path = some t → pre t → op focus root = .error f →
    allowed f.cause

namespace Contract

variable {α : Type} {allowed : Cause → Prop} {pre middle post : Tree → Prop}
  {op next : Focus → Tree → Outcome Tree}

theorem weaken {pre' post' : Tree → Prop} (contract : Contract allowed pre op post)
    (before : ∀ t, pre' t → pre t) (after : ∀ t, post t → post' t) :
    Contract allowed pre' op post' where
  leaves focus root t r there asked done := by
    obtain ⟨u, replaced, promised⟩ := contract.leaves focus there (before t asked) done
    exact ⟨u, replaced, after u promised⟩
  fails focus root t f there asked failed := contract.fails focus there (before t asked) failed

theorem ok : Contract allowed pre (fun _ root => .ok root) pre where
  leaves _ _ t _ there asked done :=
    ⟨t, Except.ok.inj done ▸ Tree.replace?_self there, asked⟩
  fails := nofun

/-- A node that is already as promised may be left as it is. -/
theorem stay {t : Tree} (promised : post t) :
    Contract allowed (· = t) (fun _ root => .ok root) post :=
  ok.weaken (fun _ same => same) fun _ same => same ▸ promised

theorem fail {cause : Cause} (may : allowed cause) :
    Contract allowed pre (fun _ _ => ConfigSweep.fail cause) post where
  leaves := nofun
  fails focus root t f there asked failed := by
    obtain rfl := Except.error.inj failed
    exact may

theorem write {value : Tree} (promised : post value) :
    Contract allowed pre (fun focus root => focus.write value root) post where
  leaves focus root t r there asked done := ⟨value, Focus.write_eq_ok.mp done, promised⟩
  fails focus root t f there asked failed := by
    obtain ⟨changed, replaced⟩ := Tree.exists_replace? there value
    rw [Focus.write_eq_ok.mpr replaced] at failed
    cases failed

theorem bind (first : Contract allowed pre op middle) (second : Contract allowed middle next post) :
    Contract allowed pre (fun focus root => op focus root >>= next focus) post where
  leaves focus root t r there asked done := by
    obtain ⟨changed, done, done'⟩ := bind_eq_ok.mp done
    obtain ⟨u, replaced, halfway⟩ := first.leaves focus there asked done
    obtain ⟨v, replaced', promised⟩ :=
      second.leaves focus (Tree.get?_replace? replaced) halfway done'
    exact ⟨v, Tree.replace?_replace? replaced v ▸ replaced', promised⟩
  fails focus root t f there asked failed := by
    rcases bind_eq_error.mp failed with early | ⟨changed, done, late⟩
    · exact first.fails focus there asked early
    · obtain ⟨u, replaced, halfway⟩ := first.leaves focus there asked done
      exact second.fails focus (Tree.get?_replace? replaced) halfway late

/-- What does not depend on the focus is done before. -/
theorem given {outcome : Tree → Outcome α} {next : α → Focus → Tree → Outcome Tree}
    (refuses : ∀ root f, outcome root = .error f → allowed f.cause)
    (each : ∀ root a, outcome root = .ok a → Contract allowed pre (next a) post) :
    Contract allowed pre (fun focus root => outcome root >>= fun a => next a focus root) post where
  leaves focus root t r there asked done := by
    obtain ⟨a, yields, done⟩ := bind_eq_ok.mp done
    exact (each root a yields).leaves focus there asked done
  fails focus root t f there asked failed := by
    rcases bind_eq_error.mp failed with early | ⟨a, yields, late⟩
    · exact refuses root f early
    · exact (each root a yields).fails focus there asked late

theorem read {next : Tree → Focus → Tree → Outcome Tree}
    (each : ∀ t, pre t → Contract allowed (· = t) (next t) post) :
    Contract allowed pre (fun focus root => focus.read root >>= fun t => next t focus root)
      post where
  leaves focus root t r there asked done := by
    obtain ⟨_, reads, done⟩ := bind_eq_ok.mp done
    obtain rfl := Option.some.inj (there.symm.trans (Focus.read_eq_ok.mp reads))
    exact (each t asked).leaves focus there rfl done
  fails focus root t f there asked failed := by
    rcases bind_eq_error.mp failed with early | ⟨_, reads, late⟩
    · rw [Focus.read_eq_ok.mpr there] at early
      cases early
    · obtain rfl := Option.some.inj (there.symm.trans (Focus.read_eq_ok.mp reads))
      exact (each t asked).fails focus there rfl late

theorem under (contract : Contract allowed pre op post) (label : String) :
    Contract allowed pre (fun focus root => op (focus.under label) root) post where
  leaves focus _ _ _ there asked done := contract.leaves (focus.under label) there asked done
  fails focus _ _ _ there asked failed := contract.fails (focus.under label) there asked failed

/-- What is done at a child that is there is done at the node. -/
theorem child {whole whole' : Tree → Prop} (contract : Contract allowed pre op post) {step : Step}
    {down : Focus → Focus} (below : ∀ focus, (down focus).path = focus.path ++ [step])
    (toChild : ∀ t, whole t → ∃ c, t.child? step = some c ∧ pre c ∧
      ∀ value, post value → whole' (t.setChild step value)) :
    Contract allowed whole (fun focus root => op (down focus) root) whole' where
  leaves focus root t r there asked done := by
    obtain ⟨c, isChild, asked', back⟩ := toChild t asked
    have onward : root.get? (down focus).path = some c := by
      rw [below, Tree.get?_concat, there]
      exact isChild
    obtain ⟨u, replaced, promised⟩ := contract.leaves (down focus) onward asked' done
    rw [below, Tree.replace?_concat there isChild] at replaced
    exact ⟨_, replaced, back u promised⟩
  fails focus root t f there asked failed := by
    obtain ⟨c, isChild, asked', -⟩ := toChild t asked
    have onward : root.get? (down focus).path = some c := by
      rw [below, Tree.get?_concat, there]
      exact isChild
    exact contract.fails (down focus) onward asked' failed

section Revealing

variable (gaps : ∀ index length, allowed (.indexOutOfRange index length))

include gaps

theorem revealed {next : Focus → Tree × Tree → Outcome Tree}
    (each : ∀ t shown, pre t → t.reveal = .ok shown →
      Contract allowed (· = shown) (fun focus root => next focus (shown, root)) post) :
    Contract allowed pre (fun focus root => focus.revealed root >>= next focus) post := by
  unfold Focus.revealed
  simp only [bind_assoc, pure_bind]
  refine read fun t asked => given (fun _ f failed => ?_) fun _ shown done => ?_
  · cases reveals : t.reveal with
    | ok shown =>
      rw [reveals] at failed
      cases failed
    | error stopped =>
      rw [reveals] at failed
      obtain rfl := Except.error.inj failed
      obtain ⟨position, length, cause⟩ := Tree.reveal_eq_error reveals
      exact cause ▸ gaps _ _
  · have shows : Contract allowed (· = t) (fun focus root => focus.write shown root) (· = shown) :=
      write rfl
    exact shows.bind (each t shown asked (Stopped.outcome_eq_ok.mp done))

theorem settle (contract : Contract allowed pre op middle) (p : Patch)
    (settles : ∀ t shown, middle t → t.reveal = .ok shown → post shown) :
    Contract allowed pre (fun focus root => settle focus p (op focus root)) post := by
  have whole : Contract allowed pre (fun focus root => op focus root >>= focus.reveal) post :=
    bind contract (revealed gaps fun t shown halfway done =>
      stay (settles t shown halfway done))
  constructor
  · intro focus root t r there asked done
    unfold Merge.settle at done
    exact whole.leaves focus there asked (Patch.located_eq_ok.mp done)
  · intro focus root t f there asked failed
    unfold Merge.settle at failed
    obtain ⟨g, inner, cause⟩ := located_eq_error failed
    exact cause ▸ whole.fails focus there asked inner

end Revealing

end Contract

end Merge

end ConfigSweep
