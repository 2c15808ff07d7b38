import ConfigSweep.Proofs.IndexedReading
import ConfigSweep.Proofs.Revealing

/-!
# Failures that the passes mask

The overrides of an empty assignment are the parameters with their lists as mappings from position
tokens. So a list that is too short for the base is merged by position where it would have been
refused, and an empty list is merged like an empty mapping. All other failures stay failures.
-/

namespace ConfigSweep

/-- A list patch is shorter than the list that it is for. -/
def Cause.ShortList (cause : Cause) : Prop :=
  ∃ expected actual, cause = .lengthMismatch expected actual ∧ actual < expected

/-- The outcome is what the other yields, if anything, or a failure for a short list. -/
def Outcome.Covers {α : Type} (outcome other : Outcome α) : Prop :=
  ∀ a, other = .ok a → outcome = .ok a ∨ ∃ f, outcome = .error f ∧ f.cause.ShortList

namespace Outcome.Covers

variable {α β : Type} {outcome other : Outcome α}

theorem of_yields (yields : ∀ a, other = .ok a → outcome = .ok a) : outcome.Covers other :=
  fun a done => .inl (yields a done)

theorem refl (outcome : Outcome α) : outcome.Covers outcome :=
  of_yields fun _ done => done

theorem bind {next next' : α → Outcome β} (first : outcome.Covers other)
    (rest : ∀ a, (next a).Covers (next' a)) : (outcome >>= next).Covers (other >>= next') := by
  intro b done
  obtain ⟨a, done, done'⟩ := bind_eq_ok.mp done
  rcases first a done with yields | ⟨f, fails, short⟩
  · rw [yields]
    exact rest a b done'
  · exact .inr ⟨f, by rw [fails]; rfl, short⟩

end Outcome.Covers

namespace Merge

open Outcome

variable {evaluator : Evaluator} {focus other : Focus} {root : Tree}

/-- At foci that lead to one node, the first operation covers the second. -/
def Covering (op op' : Focus → Tree → Outcome Tree) : Prop :=
  ∀ {focus other : Focus}, focus.Same other → ∀ root, (op focus root).Covers (op' other root)

theorem write_covers (same : focus.Same other) (value : Tree) :
    (focus.write value root).Covers (other.write value root) :=
  .of_yields fun _ done => Focus.Same.write same.symm done

theorem settle_covers (same : focus.Same other) (p q : Patch) {outcome outcome' : Outcome Tree}
    (covers : outcome.Covers outcome') :
    (settle focus p outcome).Covers (settle other q outcome') := by
  intro r done
  obtain ⟨merged, merges, reveals⟩ := settle_eq_ok.mp done
  rcases covers merged merges with yields | ⟨f, fails, short⟩
  · exact .inl (settle_eq_ok.mpr ⟨merged, yields, Focus.Same.reveal same.symm reveals⟩)
  · refine .inr ⟨f.locate focus.trail.dotted p.toTree, by rw [fails]; rfl, ?_⟩
    rw [Failure.cause_locate]
    exact short

section Lists

/-- Patches for items that are merged at their positions have room in the list. -/
theorem fits_of_slots {ps : List Patch} {position length : Nat} {root r : Tree}
    (done : slots evaluator (Patch.indexedItems ps position) length focus root = .ok r) :
    ps = [] ∨ position + ps.length ≤ length := by
  induction ps generalizing position root with
  | nil => exact .inl rfl
  | cons p rest ih =>
    rw [Patch.indexedItems, slots] at done
    split at done
    · cases done
    · obtain ⟨merged, -, later⟩ := bind_eq_ok.mp done
      rw [List.length_cons]
      rcases ih later with rfl | fits
      · rw [List.length_nil]
        omega
      · omega

theorem items_covers {ps : List Patch}
    (each : ∀ p ∈ ps, Covering (node evaluator p) (node evaluator p.indexed))
    (same : focus.Same other) (position length : Nat) (root : Tree) :
    (items evaluator ps position focus root).Covers
      (slots evaluator (Patch.indexedItems ps position) length other root) := by
  induction ps generalizing position root with
  | nil => exact .refl _
  | cons p rest ih =>
    rw [List.forall_mem_cons] at each
    rw [Patch.indexedItems, slots]
    split
    · nofun
    · exact .bind (each.1 (same.atIndex position) root) fun root => ih each.2 (position + 1) root

theorem slots_covers {patches : List (Nat × Patch)}
    (each : ∀ slot ∈ patches, Covering (node evaluator slot.2) (node evaluator slot.2.indexed))
    (same : focus.Same other) (length : Nat) (root : Tree) :
    (slots evaluator patches length focus root).Covers
      (slots evaluator (Patch.indexedSlots patches) length other root) := by
  induction patches generalizing root with
  | nil => exact .refl _
  | cons slot rest ih =>
    obtain ⟨position, p⟩ := slot
    rw [List.forall_mem_cons] at each
    rw [Patch.indexedSlots, slots, slots]
    split
    · nofun
    · exact .bind (each.1 (same.atIndex position) root) fun root => ih each.2 root

/-- A list patch is merged like patches at its positions, unless the list in the base is longer. -/
theorem list_covers {ps : List Patch}
    (each : ∀ p ∈ ps, Covering (node evaluator p) (node evaluator p.indexed))
    (same : focus.Same other) (root : Tree) :
    (openList focus ps.length root >>= items evaluator ps 0 focus).Covers
      (openSlots other ⟨Patch.indexedItems ps 0⟩ root >>= fun opened =>
        slots evaluator (Patch.indexedItems ps 0) opened.1 other opened.2) := by
  intro r done
  obtain ⟨⟨length, opened⟩, opens, merges⟩ := bind_eq_ok.mp done
  have opened' : openList focus ps.length root = .ok opened ∨
      ∃ f, openList focus ps.length root = .error f ∧ f.cause.ShortList := by
    obtain ⟨⟨t, shown⟩, reveals, opens⟩ := bind_eq_ok.mp opens
    unfold openList
    rw [Focus.Same.revealed same.symm reveals]
    dsimp only [Bind.bind, Except.bind]
    cases t with
    | list items =>
      obtain ⟨rfl, rfl⟩ := Prod.mk.inj (Except.ok.inj opens)
      dsimp only
      split
      · exact .inl rfl
      · next unequal =>
        refine .inr ⟨_, rfl, items.length, ps.length, rfl, ?_⟩
        rcases fits_of_slots merges with rfl | fits
        · exact Nat.pos_of_ne_zero unequal
        · omega
    | mapping m => cases opens
    | _ =>
      obtain ⟨⟨⟩, -, opens⟩ := bind_eq_ok.mp opens
      obtain ⟨changed, writes, same'⟩ := bind_eq_ok.mp opens
      obtain ⟨-, rfl⟩ := Prod.mk.inj (Except.ok.inj same')
      rw [size_indexedItems] at writes
      exact .inl (Focus.Same.write same.symm writes)
  rcases opened' with opens' | ⟨f, fails, short⟩
  · rw [opens']
    exact items_covers each same 0 length opened r merges
  · exact .inr ⟨f, by rw [fails]; rfl, short⟩

end Lists

section Mappings

theorem values_covers {entries : List (String × Patch)}
    (each : ∀ e ∈ entries, Covering (node evaluator e.2) (node evaluator e.2.indexed))
    (same : focus.Same other) (root : Tree) :
    (values evaluator entries focus root).Covers
      (values evaluator (Patch.indexedNamed entries) other root) := by
  induction entries generalizing root with
  | nil => exact .refl _
  | cons e rest ih =>
    obtain ⟨key, p⟩ := e
    rw [List.forall_mem_cons] at each
    rw [Patch.indexedNamed, values, values]
    refine .bind (.of_yields fun _ done => ensureKey_same same.symm done) fun opened => ?_
    exact .bind (each.1 (same.atKey key) opened) fun merged => ih each.2 merged

theorem revisits_covers {groups : List (String × Patch)}
    (each : ∀ e ∈ groups, Covering (node evaluator e.2) (node evaluator e.2.indexed))
    (same : focus.Same other) (root : Tree) :
    (revisits evaluator groups focus root).Covers
      (revisits evaluator (Patch.indexedNamed groups) other root) := by
  induction groups generalizing root with
  | nil => exact .refl _
  | cons e rest ih =>
    obtain ⟨key, p⟩ := e
    rw [List.forall_mem_cons] at each
    rw [Patch.indexedNamed, revisits, revisits]
    exact .bind (each.1 (same.under key key) root) fun merged => ih each.2 merged

theorem ordered_covers {upserts : List (Option String × Patch)}
    (each : ∀ u ∈ upserts, Covering (node evaluator u.2) (node evaluator u.2.indexed))
    (same : focus.Same other) (place place' number : Nat) (root : Tree) :
    (ordered evaluator upserts place focus root).Covers
      (ordered evaluator (Patch.indexedUpserts upserts number) place' other root) := by
  induction upserts generalizing place place' number root with
  | nil => exact .refl _
  | cons u rest ih =>
    obtain ⟨key, p⟩ := u
    rw [List.forall_mem_cons] at each
    rw [Patch.indexedUpserts, ordered, ordered]
    exact .bind (each.1 (same.under _ _) root) fun merged => ih each.2 _ _ _ merged

theorem keyed_covers {patch : KeyedPatch Patch}
    (each : ∀ p ∈ patch.patches, Covering (node evaluator p) (node evaluator p.indexed)) :
    Covering (keyed evaluator patch) (keyed evaluator (Patch.indexedKeyed patch)) := by
  obtain ⟨entries, groups, upserts⟩ := patch
  intro focus other same root
  have empty : (Patch.indexedNamed entries).isEmpty = entries.isEmpty := by
    rw [Patch.indexedNamed_eq, List.isEmpty_map]
  rw [Patch.indexedKeyed, keyed, keyed, empty]
  refine .bind (.of_yields fun _ done => openMapping_same same.symm done) fun opened => ?_
  refine .bind (values_covers (fun e member => each e.2 (KeyedPatch.mem_patches_of_entry member))
    same opened) fun valued => ?_
  refine .bind (revisits_covers (fun e member => each e.2 (KeyedPatch.mem_patches_of_group member))
    same valued) fun grouped => ?_
  exact ordered_covers (fun u member => each u.2 (KeyedPatch.mem_patches_of_upsert member))
    same 0 0 0 grouped

end Mappings

section Scripts

variable {payload payload' : PayloadMerge} (covering : Covering payload payload')

include covering

theorem apply_covers (same : focus.Same other) (items : List Tree) (edit : Edit) (root : Tree) :
    (edit.apply evaluator payload focus items root).Covers
      (edit.apply evaluator payload' other items root) := by
  cases edit with
  | insert requested value =>
    refine .bind (.refl _) fun position => ?_
    cases value with
    | some value => exact .bind (.refl _) fun _ => write_covers same _
    | none =>
      exact .bind (write_covers same _) fun opened => covering (same.atIndex position) opened
  | overwrite requested value =>
    refine .bind (.refl _) fun position => ?_
    cases value with
    | some value => exact .bind (.refl _) fun _ => write_covers same _
    | none => exact covering (same.atIndex position) root
  | remove requested => exact .bind (.refl _) fun _ => write_covers same _

theorem run_covers (same : focus.Same other) (script : Script) (root : Tree) :
    (script.run evaluator payload focus root).Covers
      (script.run evaluator payload' other root) := by
  induction script generalizing root with
  | nil => exact .refl _
  | cons edit rest ih =>
    refine .bind (.of_yields fun items done => ?_) fun items =>
      .bind (apply_covers covering same items edit root) ih
    obtain ⟨t, reads, isList⟩ := bind_eq_ok.mp done
    exact bind_eq_ok.mpr ⟨t, Focus.Same.read same.symm reads, isList⟩

end Scripts

/-- Wherever the indexed patch can be merged, the patch itself is merged to the same tree, or fails
for a short list. -/
theorem node_covers (p : Patch) : Covering (node evaluator p) (node evaluator p.indexed) := by
  induction p using Patch.children_induction with
  | node p ih =>
    intro focus other same root
    cases p with
    | scalar value => exact settle_covers same _ _ (write_covers same value)
    | fromRoot call => exact settle_covers same _ _ (.bind (.refl _) fun _ => write_covers same _)
    | fromPrevious call =>
      refine settle_covers same _ _ (.bind (.of_yields fun _ reads => ?_) fun previous => ?_)
      · exact Focus.Same.read same.symm reads
      · exact .bind (.refl _) fun _ => write_covers same _
    | list patches => exact settle_covers same _ _ (list_covers ih same root)
    | sparse slots =>
      obtain ⟨slots⟩ := slots
      have size : (⟨slots⟩ : SparseList Patch).size = (Patch.indexedSparse ⟨slots⟩).size := by
        rw [Patch.indexedSparse_eq]
        simp [SparseList.size, SparseList.mapValues]
      have gapless : (Patch.indexedSparse ⟨slots⟩).checkGapless = .ok () →
          (⟨slots⟩ : SparseList Patch).checkGapless = .ok () := by
        rw [Patch.indexedSparse_eq, SparseList.checkGapless_mapValues]
        exact id
      refine settle_covers same _ _ (.bind (.of_yields fun _ opens => ?_) fun opened => ?_)
      · exact openSlots_same same.symm size gapless opens
      · exact slots_covers (List.forall_mem_map.mp ih) same opened.1 opened.2
    | edits script payload =>
      refine settle_covers same _ _ (.bind (.of_yields fun _ opens => ?_) fun opened => ?_)
      · exact openScript_same same.symm opens
      · exact run_covers (keyed_covers ih) same script opened
    | keyed patch => exact settle_covers same _ _ (keyed_covers ih same root)

end Merge

/-- A tree that fails to merge for anything but a short list still fails with its lists indexed. -/
theorem Tree.merge_indexed_eq_error {evaluator : Evaluator} {base t : Tree} (filled : t.ListsFilled)
    (fit : t.ListsFit) {f : Failure} (failed : merge evaluator base t = .error f)
    (long : ¬ f.cause.ShortList) : ∃ g, merge evaluator base t.indexed = .error g := by
  cases outcome : merge evaluator base t.indexed with
  | error g => exact ⟨g, rfl⟩
  | ok merged =>
    obtain ⟨p, indexedRead, merges, plain⟩ := merge_eq_ok.mp outcome
    obtain ⟨q, read, rfl⟩ := (Patch.ofTree_indexed_eq_ok filled fit).mp indexedRead
    have same : Focus.root.Same Focus.root := rfl
    rcases Merge.node_covers q same base merged merges with yields | ⟨g, fails, short⟩
    · rw [merge_eq_ok.mpr ⟨q, read, yields, plain⟩] at failed
      cases failed
    · have own : merge evaluator base t = .error g := by
        unfold merge Patch.mergeInto
        rw [read]
        dsimp only [Bind.bind, Except.bind]
        rw [fails]
      rw [failed] at own
      exact absurd (Except.error.inj own ▸ short) long

namespace AliasTable

/-- Parameters without axes and without empty lists that fail to merge into a base, for anything but
a list that is too short for the one in the base, fail as well when they come back from the passes
as the overrides of an empty assignment. -/
theorem merge_overrides_nil_fails (evaluator : Evaluator) (base : Tree) (entries : Mapping Tree)
    (distinct : (Tree.mapping entries).Distinct) (split : AxisSplit)
    (accepted : (Tree.mapping entries).splitAxes = .ok split)
    (unmarked : (Tree.mapping entries).Unmarked) (filled : (Tree.mapping entries).ListsFilled)
    (fit : (Tree.mapping entries).ListsFit) (f : Failure)
    (failed : Tree.merge evaluator base (.mapping entries) = .error f)
    (long : ¬ f.cause.ShortList) :
    ∃ t standard overrides,
      ofSweep (.mapping [(parametersKey, .mapping entries)]) = .ok (t, standard) ∧
      t.overrides [] = .ok overrides ∧
      ∃ g, Tree.merge evaluator base overrides = .error g := by
  obtain ⟨t, standard, standardized, overrides⟩ := exists_overrides_nil distinct accepted unmarked
  exact ⟨t, standard, _, standardized, overrides,
    Tree.merge_indexed_eq_error filled fit failed long⟩

/-- A list for one layer more than the base has, behind an item that is merged. -/
def longEntries : Mapping Tree :=
  [("depth", .int 2), ("layers", .list [.mapping [("width", .int 3)], .int 5])]

def longBase : Tree :=
  .mapping [("layers", .list [.mapping [("width", .int 1)]])]

theorem merge_overrides_nil_fails_long :
    ∃ f, Tree.merge .refusing longBase (.mapping longEntries) = .error f ∧
      f.cause = .lengthMismatch 1 2 ∧
      ∃ t standard overrides,
        ofSweep (.mapping [(parametersKey, .mapping longEntries)]) = .ok (t, standard) ∧
        t.overrides [] = .ok overrides ∧
        ∃ g, Tree.merge .refusing longBase overrides = .error g := by
  obtain ⟨f, failed, cause⟩ : ∃ f, Tree.merge .refusing longBase (.mapping longEntries) = .error f ∧
      f.cause = .lengthMismatch 1 2 := ⟨_, by with_unfolding_all rfl, rfl⟩
  have long : ¬ f.cause.ShortList := by
    rintro ⟨expected, actual, same, less⟩
    rw [cause] at same
    obtain ⟨rfl, rfl⟩ := Cause.lengthMismatch.inj same
    omega
  exact ⟨f, failed, cause, merge_overrides_nil_fails .refusing longBase longEntries (by decide)
    ⟨[], (Tree.mapping longEntries).indexed⟩ rfl (by decide) (by decide) (by decide) f failed long⟩

/-- Parameters without axes that fail to merge for the cause are merged all the same when they come
back from the passes. -/
def Masks (evaluator : Evaluator) (base : Tree) (entries : Mapping Tree) (cause : Cause) : Prop :=
  (Tree.mapping entries).Unmarked ∧
  (∃ f, Tree.merge evaluator base (.mapping entries) = .error f ∧ f.cause = cause) ∧
  ∃ t standard overrides merged,
    ofSweep (.mapping [(parametersKey, .mapping entries)]) = .ok (t, standard) ∧
    t.overrides [] = .ok overrides ∧ Tree.merge evaluator base overrides = .ok merged

/-- A list that is too short is merged by position. An empty list is merged like an empty mapping,
and what comes to it later is checked against that mapping. -/
theorem overrides_nil_mask :
    Masks .refusing (.mapping [("layers", .list [.int 1, .int 2, .int 3])])
      [("layers", .list [.int 7])] (.lengthMismatch 3 1) ∧
    Masks .refusing (.mapping [("layers", .mapping [])])
      [("layers", .list [])] (.shapeMismatch .mapping .list) ∧
    Masks .refusing (.mapping [])
      [("layers", .list []), (Keyword.upsert, .list [.mapping [("layers",
        .mapping [("width", .int 3)])]])] (.shapeMismatch .list .mapping) := by
  refine ⟨⟨by decide, ⟨_, by with_unfolding_all rfl, rfl⟩, ?_⟩,
    ⟨by decide, ⟨_, by with_unfolding_all rfl, rfl⟩, ?_⟩,
    ⟨by decide, ⟨_, by with_unfolding_all rfl, rfl⟩, ?_⟩⟩
  · exact ⟨_, _, _, .mapping [("layers", .list [.int 7, .int 2, .int 3])], rfl, rfl, by
      with_unfolding_all rfl⟩
  · exact ⟨_, _, _, .mapping [("layers", .mapping [])], rfl, rfl, by with_unfolding_all rfl⟩
  · exact ⟨_, _, _, .mapping [("layers", .mapping [("width", .int 3)])], rfl, rfl, by
      with_unfolding_all rfl⟩

end AliasTable

end ConfigSweep
