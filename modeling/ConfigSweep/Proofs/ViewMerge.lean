import ConfigSweep.Proofs.IndexedMerge
import ConfigSweep.Proofs.Revealing
import Mathlib.Data.List.InsertIdx

/-!
# Merging into trees of one view

A patch that is merged into two roots of one view does the same to both, when the values of calls
do not depend on the order of keys either. `Outcome.Follows` says that what one run yields another
yields as well, up to a relation of the results.
-/

namespace ConfigSweep

/-- What the first outcome yields, the second yields up to a relation. -/
def Outcome.Follows {α β : Type} (alike : α → β → Prop) (first : Outcome α) (second : Outcome β) :
    Prop :=
  ∀ a, first = .ok a → ∃ b, second = .ok b ∧ alike a b

/-- The trees agree up to the order of keys. -/
def Tree.SameView (t u : Tree) : Prop :=
  t.view = u.view

/-- The values of calls do not depend on the order of keys. -/
def Evaluator.Unordered (evaluator : Evaluator) : Prop :=
  ∀ call t u, t.SameView u → (evaluator call t).Follows Tree.SameView (evaluator call u)

namespace Outcome

variable {α β γ δ : Type}

theorem Follows.ok {alike : α → β → Prop} {a : α} {b : β} (here : alike a b) :
    Follows alike (.ok a) (.ok b) := by
  rintro _ ⟨⟩
  exact ⟨b, rfl, here⟩

theorem Follows.bind {alike : α → β → Prop} {alike' : γ → δ → Prop} {first : Outcome α}
    {second : Outcome β} {next : α → Outcome γ} {next' : β → Outcome δ}
    (follows : Follows alike first second)
    (onward : ∀ a b, alike a b → Follows alike' (next a) (next' b)) :
    Follows alike' (first >>= next) (second >>= next') := by
  intro c done
  obtain ⟨a, yields, later⟩ := bind_eq_ok.mp done
  obtain ⟨b, yields', here⟩ := follows a yields
  obtain ⟨d, later', there⟩ := onward a b here c later
  exact ⟨d, bind_eq_ok.mpr ⟨b, yields', later'⟩, there⟩

theorem Follows.trans {alike : α → β → Prop} {alike' : β → γ → Prop} {alike'' : α → γ → Prop}
    {first : Outcome α} {second : Outcome β} {third : Outcome γ} (left : Follows alike first second)
    (right : Follows alike' second third) (both : ∀ a b c, alike a b → alike' b c → alike'' a c) :
    Follows alike'' first third := by
  intro a done
  obtain ⟨b, yields, here⟩ := left a done
  obtain ⟨c, yields', there⟩ := right b yields
  exact ⟨c, yields', both a b c here there⟩

theorem Follows.sameView_trans {first second third : Outcome Tree}
    (left : Follows Tree.SameView first second) (right : Follows Tree.SameView second third) :
    Follows Tree.SameView first third :=
  left.trans right fun _ _ _ here there => Eq.trans here there

/-- Outcomes that follow each other both fail, or yield the same up to the order of keys. -/
theorem map_view_eq {first second : Outcome Tree} (forth : Follows Tree.SameView first second)
    (back : Follows Tree.SameView second first) :
    first.toOption.map Tree.view = second.toOption.map Tree.view := by
  cases first with
  | ok t =>
    obtain ⟨u, rfl, same⟩ := forth t rfl
    exact congrArg some same
  | error failure =>
    cases second with
    | ok u =>
      obtain ⟨t, yields, -⟩ := back u rfl
      cases yields
    | error other => rfl

theorem Follows.located {alike : α → β → Prop} {first : Outcome α} {second : Outcome β}
    (follows : Follows alike first second) (trail trail' : Trail) (patch patch' : Tree) :
    Follows alike (first.located trail patch) (second.located trail' patch') := by
  intro a done
  obtain ⟨b, yields, here⟩ := follows a (Patch.located_eq_ok.mp done)
  exact ⟨b, Patch.located_eq_ok.mpr yields, here⟩

theorem Follows.fail {alike : α → β → Prop} (cause : Cause) (second : Outcome β) :
    Follows alike (ConfigSweep.fail cause) second := by
  intro a done
  cases done

theorem Follows.mapM {relation : α → β → Prop} {alike : γ → δ → Prop} {first : α → Outcome γ}
    {second : β → Outcome δ} {as : List α} {bs : List β} (related : List.Forall₂ relation as bs)
    (each : ∀ a b, relation a b → Follows alike (first a) (second b)) :
    Follows (List.Forall₂ alike) (as.mapM first) (bs.mapM second) := by
  induction related with
  | nil => exact .ok .nil
  | cons here rest ih =>
    rw [List.mapM_cons, List.mapM_cons]
    exact (each _ _ here).bind fun _ _ head => ih.bind fun _ _ tail => .ok (.cons head tail)

end Outcome

open Outcome

namespace EditValue

/-- The values are the same up to the order of keys. -/
inductive Alike : EditValue → EditValue → Prop where
  | literal {v w : Tree} (same : v.SameView w) : Alike (.literal v) (.literal w)
  | computed (call : Call) : Alike (.computed call) (.computed call)

theorem Alike.refl : ∀ value : EditValue, Alike value value
  | .literal _ => .literal rfl
  | .computed call => .computed call

theorem Alike.compute {evaluator : Evaluator} (unordered : evaluator.Unordered)
    {value value' : EditValue} (alike : Alike value value') {root root' : Tree}
    (same : root.SameView root') :
    (value.compute evaluator root).Follows Tree.SameView (value'.compute evaluator root') := by
  cases alike with
  | literal view => exact .ok view
  | computed call => exact unordered call root root' same

end EditValue

namespace Edit

/-- The instructions are the same but for the order of keys in their values. -/
inductive Alike : Edit → Edit → Prop where
  | insert (position : Int) {value value' : Option EditValue}
      (values : Option.Rel EditValue.Alike value value') :
      Alike (.insert position value) (.insert position value')
  | overwrite (position : Int) {value value' : Option EditValue}
      (values : Option.Rel EditValue.Alike value value') :
      Alike (.overwrite position value) (.overwrite position value')
  | remove (position : Int) : Alike (.remove position) (.remove position)

theorem Alike.refl : ∀ edit : Edit, Alike edit edit
  | .insert position none => .insert position .none
  | .insert position (some value) => .insert position (.some (.refl value))
  | .overwrite position none => .overwrite position .none
  | .overwrite position (some value) => .overwrite position (.some (.refl value))
  | .remove position => .remove position

end Edit

namespace Focus

variable {focus : Focus} {root root' : Tree}

theorem read_follows (same : root.SameView root') (focus : Focus) :
    (focus.read root).Follows Tree.SameView (focus.read root') := by
  intro t done
  obtain ⟨u, found, view⟩ := Tree.get?_path_of_view same (read_eq_ok.mp done)
  exact ⟨u, read_eq_ok.mpr found, view⟩

theorem write_follows (same : root.SameView root') {value value' : Tree}
    (values : value.SameView value') (focus : Focus) :
    (focus.write value root).Follows Tree.SameView (focus.write value' root') := by
  intro t done
  obtain ⟨u, written, view⟩ := Tree.replace?_of_view same values (write_eq_ok.mp done)
  exact ⟨u, write_eq_ok.mpr written, view⟩

theorem revealed_follows (same : root.SameView root') (focus : Focus) :
    (focus.revealed root).Follows (fun a b => a.1.SameView b.1 ∧ a.2.SameView b.2)
      (focus.revealed root') := by
  unfold revealed
  refine (read_follows same focus).bind fun t u views => ?_
  have reveals : (Stopped.outcome t.reveal).Follows Tree.SameView (Stopped.outcome u.reveal) := by
    intro shown done
    obtain ⟨s, other, view⟩ := Tree.reveal_of_view views (Stopped.outcome_eq_ok.mp done)
    exact ⟨s, Stopped.outcome_eq_ok.mpr other, view⟩
  refine reveals.bind fun r s shown => ?_
  exact (write_follows same shown focus).bind fun r' s' written => .ok ⟨shown, written⟩

theorem reveal_follows (same : root.SameView root') (focus : Focus) :
    (focus.reveal root).Follows Tree.SameView (focus.reveal root') :=
  (revealed_follows same focus).bind fun _ _ shown => .ok shown.2

theorem items_follows (same : root.SameView root') (focus : Focus) :
    (focus.items root).Follows (fun a b => a.map Tree.view = b.map Tree.view)
      (focus.items root') := by
  refine (read_follows same focus).bind fun t u views => ?_
  cases t with
  | list items =>
    obtain ⟨others, rfl, same⟩ := Tree.view_list views
    exact .ok same
  | _ => exact .fail _ _

end Focus

namespace Merge

variable {evaluator : Evaluator} {focus : Focus} {root root' : Tree}

theorem settle_follows {first second : Outcome Tree} (follows : first.Follows Tree.SameView second)
    (focus : Focus) (p q : Patch) :
    (settle focus p first).Follows Tree.SameView (settle focus q second) :=
  (follows.bind fun _ _ same => Focus.reveal_follows same focus).located _ _ _ _

section Opening

theorem openMapping_follows (same : root.SameView root') (focus : Focus) (noEntries : Bool) :
    (openMapping focus noEntries root).Follows Tree.SameView
      (openMapping focus noEntries root') := by
  refine (Focus.revealed_follows same focus).bind ?_
  rintro ⟨t, root⟩ ⟨u, root'⟩ ⟨shown, same⟩
  have shapes : t.shape = u.shape := Tree.shape_of_view shown
  dsimp only at shapes ⊢
  rw [shapes]
  split
  · exact .ok same
  · exact Focus.write_follows same rfl focus
  · split
    · exact .ok same
    · exact .fail _ _

theorem ensureKey_follows (same : root.SameView root') (focus : Focus) (key : String) :
    (ensureKey focus key root).Follows Tree.SameView (ensureKey focus key root') := by
  refine (Focus.read_follows same focus).bind fun t u views => ?_
  cases t with
  | mapping entries =>
    obtain ⟨others, rfl, inner⟩ := Tree.view_mapping views
    dsimp only
    rw [Tree.has_of_view inner]
    split
    · exact .ok same
    · have opened : (Tree.mapping (Mapping.insert key .null entries)).SameView
          (.mapping (Mapping.insert key .null others)) :=
        congrArg View.mapping (Tree.view_insert inner key rfl)
      exact Focus.write_follows same opened focus
  | _ => exact .fail _ _

theorem openList_follows (same : root.SameView root') (focus : Focus) (length : Nat) :
    (openList focus length root).Follows Tree.SameView (openList focus length root') := by
  refine (Focus.revealed_follows same focus).bind ?_
  rintro ⟨t, root⟩ ⟨u, root'⟩ ⟨shown, same⟩
  dsimp only at shown same ⊢
  cases t with
  | list items =>
    obtain ⟨others, rfl, views⟩ := Tree.view_list shown
    have lengths := congrArg List.length views
    rw [List.length_map, List.length_map] at lengths
    dsimp only
    rw [lengths]
    split
    · exact .ok same
    · exact .fail _ _
  | mapping entries => exact .fail _ _
  | _ =>
    rw [Tree.view_leaf rfl shown]
    exact Focus.write_follows same rfl focus

theorem openSlots_follows (same : root.SameView root') (focus : Focus)
    {slots slots' : SparseList Patch}
    (positions : slots.slots.map Prod.fst = slots'.slots.map Prod.fst) :
    (openSlots focus slots root).Follows (fun a b => a.1 = b.1 ∧ a.2.SameView b.2)
      (openSlots focus slots' root') := by
  have sizes : slots.size = slots'.size := by
    have lengths := congrArg List.length positions
    rwa [List.length_map, List.length_map] at lengths
  have checks := SparseList.checkGapless_congr positions
  refine (Focus.revealed_follows same focus).bind ?_
  rintro ⟨t, root⟩ ⟨u, root'⟩ ⟨shown, same⟩
  dsimp only at shown same ⊢
  cases t with
  | list items =>
    obtain ⟨others, rfl, views⟩ := Tree.view_list shown
    have lengths := congrArg List.length views
    rw [List.length_map, List.length_map] at lengths
    exact .ok ⟨lengths, same⟩
  | mapping entries => exact .fail _ _
  | _ =>
    rw [Tree.view_leaf rfl shown, checks, sizes]
    dsimp only
    cases slots'.checkGapless with
    | error failure =>
      intro r done
      cases done
    | ok checked =>
      exact (Focus.write_follows same rfl focus).bind fun _ _ written => .ok ⟨rfl, written⟩

theorem openScript_follows (same : root.SameView root') (focus : Focus) :
    (openScript focus root).Follows Tree.SameView (openScript focus root') := by
  refine (Focus.revealed_follows same focus).bind ?_
  rintro ⟨t, root⟩ ⟨u, root'⟩ ⟨shown, same⟩
  have shapes : t.shape = u.shape := Tree.shape_of_view shown
  dsimp only at shapes ⊢
  rw [shapes]
  split
  · exact .ok same
  · exact .fail _ _

end Opening

section Scripts

variable {payload payload' : PayloadMerge}

section Items

variable {items items' : List Tree} {v w : Tree} (views : items.map Tree.view = items'.map Tree.view)
include views

theorem sameView_insertIdx (values : v.SameView w) (position : Nat) :
    (Tree.list (items.insertIdx position v)).SameView (.list (items'.insertIdx position w)) := by
  unfold Tree.SameView at values ⊢
  rw [Tree.view, Tree.view, Tree.viewItems_eq, Tree.viewItems_eq, List.map_insertIdx,
    List.map_insertIdx, views, values]

theorem sameView_set (values : v.SameView w) (position : Nat) :
    (Tree.list (items.set position v)).SameView (.list (items'.set position w)) := by
  unfold Tree.SameView at values ⊢
  rw [Tree.view, Tree.view, Tree.viewItems_eq, Tree.viewItems_eq, List.map_set, List.map_set,
    views, values]

theorem sameView_eraseIdx (position : Nat) :
    (Tree.list (items.eraseIdx position)).SameView (.list (items'.eraseIdx position)) := by
  unfold Tree.SameView
  rw [Tree.view, Tree.view, Tree.viewItems_eq, Tree.viewItems_eq, ← List.eraseIdx_map,
    ← List.eraseIdx_map, views]

end Items

theorem apply_follows (unordered : evaluator.Unordered)
    (payloads : ∀ focus root root', root.SameView root' →
      (payload focus root).Follows Tree.SameView (payload' focus root'))
    {edit edit' : Edit} (alike : edit.Alike edit') {items items' : List Tree}
    (views : items.map Tree.view = items'.map Tree.view) (same : root.SameView root')
    (focus : Focus) :
    (edit.apply evaluator payload focus items root).Follows Tree.SameView
      (edit'.apply evaluator payload' focus items' root') := by
  have lengths := congrArg List.length views
  rw [List.length_map, List.length_map] at lengths
  have same' : ∀ (found : Outcome Nat), found.Follows Eq found := fun _ _ done => ⟨_, done, rfl⟩
  cases alike with
  | insert position values =>
    unfold Edit.apply
    rw [lengths]
    refine (same' _).bind ?_
    rintro place _ rfl
    cases values with
    | none =>
      exact (Focus.write_follows same (sameView_insertIdx views rfl place) focus).bind
        fun _ _ opened => payloads _ _ _ opened
    | some value =>
      exact (value.compute unordered same).bind fun _ _ computed =>
        Focus.write_follows same (sameView_insertIdx views computed place) focus
  | overwrite position values =>
    unfold Edit.apply
    rw [lengths]
    refine (same' _).bind ?_
    rintro place _ rfl
    cases values with
    | none => exact payloads _ _ _ same
    | some value =>
      exact (value.compute unordered same).bind fun _ _ computed =>
        Focus.write_follows same (sameView_set views computed place) focus
  | remove position =>
    unfold Edit.apply
    rw [lengths]
    refine (same' _).bind ?_
    rintro place _ rfl
    exact Focus.write_follows same (sameView_eraseIdx views place) focus

theorem run_follows (unordered : evaluator.Unordered)
    (payloads : ∀ focus root root', root.SameView root' →
      (payload focus root).Follows Tree.SameView (payload' focus root'))
    {script script' : Script} (alike : List.Forall₂ Edit.Alike script script')
    (same : root.SameView root') (focus : Focus) :
    (script.run evaluator payload focus root).Follows Tree.SameView
      (script'.run evaluator payload' focus root') := by
  induction alike generalizing root root' with
  | nil => exact .ok same
  | cons first rest ih =>
    unfold Script.run
    exact (Focus.items_follows same focus).bind fun _ _ views =>
      (apply_follows unordered payloads first views same focus).bind fun _ _ edited => ih edited

end Scripts

end Merge

/-- What merging the first patch yields, merging the second yields as well, up to the order of
keys. -/
def Patch.Follows (evaluator : Evaluator) (p q : Patch) : Prop :=
  ∀ (focus : Focus) {root root' : Tree}, root.SameView root' →
    (Merge.node evaluator p focus root).Follows Tree.SameView (Merge.node evaluator q focus root')

/-- The same labels in the same order, and every patch follows its partner. -/
abbrev Patch.Aligned {κ : Type} (evaluator : Evaluator) : List (κ × Patch) → List (κ × Patch) → Prop :=
  List.Forall₂ fun a b => a.1 = b.1 ∧ Patch.Follows evaluator a.2 b.2

/-- What merging the first yields, merging the second yields as well. -/
def KeyedPatch.Follows (evaluator : Evaluator) (first second : KeyedPatch Patch) : Prop :=
  ∀ (focus : Focus) {root root' : Tree}, root.SameView root' →
    (Merge.keyed evaluator first focus root).Follows Tree.SameView
      (Merge.keyed evaluator second focus root')

/-- Part for part, the patches of the second follow those of the first. -/
structure KeyedPatch.Aligned (evaluator : Evaluator) (first second : KeyedPatch Patch) : Prop where
  entries : Patch.Aligned evaluator first.entries second.entries
  groups : Patch.Aligned evaluator first.groups second.groups
  upserts : Patch.Aligned evaluator first.upserts second.upserts

namespace Merge

variable {evaluator : Evaluator}

section Parts

theorem items_follows {ps qs : List Patch} (aligned : List.Forall₂ (Patch.Follows evaluator) ps qs)
    (position : Nat) (focus : Focus) {root root' : Tree} (same : root.SameView root') :
    (items evaluator ps position focus root).Follows Tree.SameView
      (items evaluator qs position focus root') := by
  induction aligned generalizing position root root' with
  | nil => exact .ok same
  | cons first rest ih => exact (first _ same).bind fun _ _ merged => ih (position + 1) merged

theorem slots_follows {slots slots' : List (Nat × Patch)} (aligned : Patch.Aligned evaluator slots slots')
    (length : Nat) (focus : Focus) {root root' : Tree} (same : root.SameView root') :
    (Merge.slots evaluator slots length focus root).Follows Tree.SameView
      (Merge.slots evaluator slots' length focus root') := by
  induction aligned generalizing root root' with
  | nil => exact .ok same
  | @cons a b _ _ first rest ih =>
    rw [Merge.slots, Merge.slots, first.1]
    split
    · exact .fail _ _
    · exact (first.2 _ same).bind fun _ _ merged => ih merged

theorem values_follows {entries entries' : List (String × Patch)}
    (aligned : Patch.Aligned evaluator entries entries') (focus : Focus) {root root' : Tree}
    (same : root.SameView root') :
    (values evaluator entries focus root).Follows Tree.SameView
      (values evaluator entries' focus root') := by
  induction aligned generalizing root root' with
  | nil => exact .ok same
  | @cons a b _ _ first rest ih =>
    rw [values, values, first.1]
    exact (ensureKey_follows same focus b.1).bind fun _ _ opened =>
      (first.2 _ opened).bind fun _ _ merged => ih merged

theorem revisits_follows {groups groups' : List (String × Patch)}
    (aligned : Patch.Aligned evaluator groups groups') (focus : Focus) {root root' : Tree}
    (same : root.SameView root') :
    (revisits evaluator groups focus root).Follows Tree.SameView
      (revisits evaluator groups' focus root') := by
  induction aligned generalizing root root' with
  | nil => exact .ok same
  | cons first rest ih =>
    rw [revisits, revisits, first.1]
    exact (first.2 _ same).bind fun _ _ merged => ih merged

theorem ordered_follows {upserts upserts' : List (Option String × Patch)}
    (aligned : Patch.Aligned evaluator upserts upserts') (place : Nat) (focus : Focus)
    {root root' : Tree} (same : root.SameView root') :
    (ordered evaluator upserts place focus root).Follows Tree.SameView
      (ordered evaluator upserts' place focus root') := by
  induction aligned generalizing place root root' with
  | nil => exact .ok same
  | cons first rest ih =>
    rw [ordered, ordered, first.1]
    exact (first.2 _ same).bind fun _ _ merged => ih (place + 1) merged

theorem keyed_follows {first second : KeyedPatch Patch}
    (aligned : first.Aligned evaluator second) : first.Follows evaluator second := by
  obtain ⟨entries, groups, upserts⟩ := first
  obtain ⟨entries', groups', upserts'⟩ := second
  intro focus root root' same
  have empty : entries.isEmpty = entries'.isEmpty := by
    cases aligned.entries <;> rfl
  rw [keyed, keyed, empty]
  exact (openMapping_follows same focus _).bind fun _ _ opened =>
    (values_follows aligned.entries focus opened).bind fun _ _ valued =>
      (revisits_follows aligned.groups focus valued).bind fun _ _ grouped =>
        ordered_follows aligned.upserts 0 focus grouped

end Parts

end Merge

namespace Patch

variable {evaluator : Evaluator}

open Merge

theorem Follows.list {ps qs : List Patch} (aligned : List.Forall₂ (Follows evaluator) ps qs) :
    Follows evaluator (.list ps) (.list qs) := by
  intro focus root root' same
  refine settle_follows ?_ focus _ _
  rw [aligned.length_eq]
  exact (openList_follows same focus _).bind fun _ _ opened => items_follows aligned 0 focus opened

theorem Follows.sparse {slots slots' : SparseList Patch}
    (aligned : Aligned evaluator slots.slots slots'.slots) :
    Follows evaluator (.sparse slots) (.sparse slots') := by
  obtain ⟨slots⟩ := slots
  obtain ⟨slots'⟩ := slots'
  intro focus root root' same
  have positions : slots.map Prod.fst = slots'.map Prod.fst := by
    rw [← List.forall₂_eq_eq_eq, List.forall₂_map_left_iff, List.forall₂_map_right_iff]
    exact aligned.imp fun _ _ both => both.1
  refine settle_follows ((openSlots_follows same focus positions).bind ?_) focus _ _
  rintro ⟨length, root⟩ ⟨_, root'⟩ ⟨rfl, opened⟩
  exact slots_follows aligned length focus opened

theorem Follows.edits (unordered : evaluator.Unordered) {script script' : Script}
    (scripts : List.Forall₂ Edit.Alike script script') {payload payload' : KeyedPatch Patch}
    (payloads : payload.Follows evaluator payload') :
    Follows evaluator (.edits script payload) (.edits script' payload') := by
  intro focus root root' same
  exact settle_follows ((openScript_follows same focus).bind fun _ _ opened =>
    run_follows unordered (fun focus _ _ same => payloads focus same) scripts opened focus)
    focus _ _

theorem Follows.keyed {patch patch' : KeyedPatch Patch} (follows : patch.Follows evaluator patch') :
    Follows evaluator (.keyed patch) (.keyed patch') :=
  fun focus _ _ same => settle_follows (follows focus same) focus _ _

theorem Follows.trans {p q r : Patch} (left : Follows evaluator p q) (right : Follows evaluator q r) :
    Follows evaluator p r :=
  fun focus _ _ same => (left focus same).sameView_trans (right focus rfl)

section Self

mutual

/-- A patch merges alike into roots of one view. -/
theorem follows_self (unordered : evaluator.Unordered) : ∀ p : Patch, Follows evaluator p p
  | .scalar _ => fun focus _ _ same =>
    settle_follows (Focus.write_follows same rfl focus) focus _ _
  | .fromRoot call => fun focus _ _ same =>
    settle_follows ((unordered call _ _ same).bind fun _ _ computed =>
      Focus.write_follows same computed focus) focus _ _
  | .fromPrevious call => fun focus _ _ same =>
    settle_follows ((Focus.read_follows same focus).bind fun _ _ previous =>
      (unordered call _ _ previous).bind fun _ _ computed =>
        Focus.write_follows same computed focus) focus _ _
  | .list patches => .list (follows_items unordered patches)
  | .sparse slots => .sparse (follows_sparse unordered slots)
  | .edits _ payload => .edits unordered (List.forall₂_same.mpr fun edit _ => .refl edit)
    (keyed_follows (follows_keyed unordered payload))
  | .keyed patch => .keyed (keyed_follows (follows_keyed unordered patch))

theorem follows_items (unordered : evaluator.Unordered) : ∀ ps : List Patch,
    List.Forall₂ (Follows evaluator) ps ps
  | [] => .nil
  | p :: ps => .cons (follows_self unordered p) (follows_items unordered ps)

theorem follows_sparse (unordered : evaluator.Unordered) : ∀ slots : SparseList Patch,
    Aligned evaluator slots.slots slots.slots
  | ⟨slots⟩ => follows_slots unordered slots

theorem follows_slots (unordered : evaluator.Unordered) : ∀ slots : List (Nat × Patch),
    Aligned evaluator slots slots
  | [] => .nil
  | (_, p) :: rest => .cons ⟨rfl, follows_self unordered p⟩ (follows_slots unordered rest)

theorem follows_keyed (unordered : evaluator.Unordered) : ∀ patch : KeyedPatch Patch,
    patch.Aligned evaluator patch
  | ⟨entries, groups, upserts⟩ => ⟨follows_named unordered entries, follows_named unordered groups,
    follows_upserts unordered upserts⟩

theorem follows_named (unordered : evaluator.Unordered) : ∀ named : List (String × Patch),
    Aligned evaluator named named
  | [] => .nil
  | (_, p) :: rest => .cons ⟨rfl, follows_self unordered p⟩ (follows_named unordered rest)

theorem follows_upserts (unordered : evaluator.Unordered) :
    ∀ upserts : List (Option String × Patch), Aligned evaluator upserts upserts
  | [] => .nil
  | (_, p) :: rest => .cons ⟨rfl, follows_self unordered p⟩ (follows_upserts unordered rest)

end

end Self

end Patch

end ConfigSweep
