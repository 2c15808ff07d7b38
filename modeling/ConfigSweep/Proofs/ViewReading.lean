import ConfigSweep.Proofs.ViewMerge

/-!
# Reading trees of one view

How a mapping is read, the call that it stands for and the script that it holds can be told from
its view, but for the order of keys in the values that a script carries.
-/

namespace ConfigSweep

namespace Tree

section Partners

variable {m n m' n' : Mapping Tree}

/-- The entries whose keys stand for a place. -/
abbrev atPlace (place : Step) (m : Mapping Tree) : Mapping Tree :=
  m.filter fun e => Step.ofToken e.1 = place

/-- Mappings of one view hold partners of one view, in the same order at every place. -/
theorem viewEntries_eq_iff : viewEntries m = viewEntries n ↔
    ∀ place, List.Forall₂ (fun d e => d.1 = e.1 ∧ d.2.SameView e.2) (atPlace place m)
      (atPlace place n) := by
  have pairs : ∀ d e : String × Tree, (d.1 = e.1 ∧ d.2.SameView e.2)
      ↔ (d.1, d.2.view) = (e.1, e.2.view) := fun d e => Prod.mk.injEq .. ▸ Iff.rfl
  have shown : ∀ (entries : Mapping Tree) place,
      viewEntries entries place = viewed (atPlace place entries) := by
    intro entries place
    rw [viewEntries_eq, List.filter_map]
    rfl
  rw [funext_iff]
  refine forall_congr' fun place => ?_
  rw [shown, shown]
  constructor
  · exact fun same => (forall₂_of_map_eq same).imp fun d e => (pairs d e).mpr
  · exact fun partners => map_eq_of_forall₂ (partners.imp fun d e => (pairs d e).mp)

/-- What is made of the entries of mappings of one view has one view, when it does for partners. -/
theorem viewEntries_of_made (made : Tree → Tree → Prop) (same : viewEntries m = viewEntries n)
    (left : List.Forall₂ (fun d d' => d.1 = d'.1 ∧ made d.2 d'.2) m m')
    (right : List.Forall₂ (fun e e' => e.1 = e'.1 ∧ made e.2 e'.2) n n')
    (partners : ∀ d ∈ m, ∀ t t' u', d.2.SameView t → made d.2 t' → made t u' → t'.SameView u') :
    viewEntries m' = viewEntries n' := by
  have kept : ∀ {k k' : Mapping Tree} (place : Step),
      List.Forall₂ (fun d d' => d.1 = d'.1 ∧ made d.2 d'.2) k k' →
        List.Forall₂ (fun d d' => d.1 = d'.1 ∧ made d.2 d'.2) (atPlace place k) (atPlace place k') :=
    fun place both => forall₂_filter both fun d d' here => by rw [here.1]
  refine viewEntries_eq_iff.mpr fun place => ?_
  refine forall₂_square (viewEntries_eq_iff.mp same place) (kept place left) (kept place right) ?_
  intro d member e d' e' both first second
  have inside := (List.mem_filter.mp member).1
  exact ⟨first.1.symm.trans (both.1.trans second.1), partners d inside _ _ _ both.2 first.2 second.2⟩

end Partners

section RevealAll

theorem revealItems_eq_ok {items shown : List Tree} : revealItems items = .ok shown ↔
    List.Forall₂ (fun t s => t.revealAll = .ok s) items shown := by
  induction items generalizing shown with
  | nil => simp [revealItems, eq_comm]
  | cons t ts ih =>
    rw [revealItems, List.forall₂_cons_left_iff]
    cases here : t.revealAll with
    | error stopped => simp
    | ok s =>
      dsimp only
      rw [lift_eq_ok]
      constructor
      · rintro ⟨rest, later, rfl⟩
        exact ⟨s, rest, rfl, ih.mp later, rfl⟩
      · rintro ⟨_, rest, ⟨⟩, later, rfl⟩
        exact ⟨rest, ih.mpr later, rfl⟩

theorem revealEntries_eq_ok {entries shown : List (String × Tree)} :
    revealEntries entries = .ok shown ↔
      List.Forall₂ (fun e s => e.1 = s.1 ∧ e.2.revealAll = .ok s.2) entries shown := by
  induction entries generalizing shown with
  | nil => simp [revealEntries, eq_comm]
  | cons e rest ih =>
    obtain ⟨key, t⟩ := e
    rw [revealEntries, List.forall₂_cons_left_iff]
    cases here : t.revealAll with
    | error stopped => simp
    | ok s =>
      dsimp only
      rw [lift_eq_ok]
      constructor
      · rintro ⟨more, later, rfl⟩
        exact ⟨(key, s), more, ⟨rfl, rfl⟩, ih.mp later, rfl⟩
      · rintro ⟨⟨key', _⟩, more, ⟨rfl, ⟨⟩⟩, later, rfl⟩
        exact ⟨more, ih.mpr later, rfl⟩

theorem revealAll_list_eq_ok {items : List Tree} {r : Tree} : (Tree.list items).revealAll = .ok r ↔
    ∃ shown, List.Forall₂ (fun t s => t.revealAll = .ok s) items shown ∧ r = .list shown := by
  rw [revealAll, lift_eq_ok]
  exact exists_congr fun shown => and_congr revealItems_eq_ok eq_comm

theorem revealAll_mapping_eq_ok {entries : Mapping Tree} {r : Tree} :
    (Tree.mapping entries).revealAll = .ok r ↔
      ∃ shown, List.Forall₂ (fun e s => e.1 = s.1 ∧ e.2.revealAll = .ok s.2) entries shown ∧
        (Tree.mapping shown).reveal = .ok r := by
  simp only [← revealEntries_eq_ok]
  rw [revealAll]
  cases revealEntries entries with
  | error stopped => simp [Stopped.lift, Except.bind]
  | ok shown => simp [Stopped.lift, Except.bind]

/-- What all of the tree is revealed as, trees of its view are revealed as, up to the order of keys. -/
def RevealsAlike (t : Tree) : Prop :=
  ∀ {u r : Tree}, t.SameView u → t.revealAll = .ok r → ∃ s, u.revealAll = .ok s ∧ r.SameView s

theorem revealsAlike_list {items : List Tree} (inner : ∀ t ∈ items, t.RevealsAlike) :
    (Tree.list items).RevealsAlike := by
  intro u r same done
  obtain ⟨others, rfl, views⟩ := view_list same
  obtain ⟨shown, each, rfl⟩ := revealAll_list_eq_ok.mp done
  have partners := forall₂_of_map_eq views
  obtain ⟨shown', each'⟩ : ∃ shown', List.Forall₂ (fun t s => t.revealAll = .ok s) others shown' := by
    refine exists_forall₂ fun b member => ?_
    obtain ⟨a, inside, view⟩ := exists_left partners b member
    obtain ⟨c, -, reveals⟩ := exists_right each a inside
    obtain ⟨d, reveals', -⟩ := inner a inside view reveals
    exact ⟨d, reveals'⟩
  refine ⟨.list shown', revealAll_list_eq_ok.mpr ⟨shown', each', rfl⟩, ?_⟩
  unfold SameView
  rw [view, view, viewItems_eq, viewItems_eq]
  refine congrArg View.list (map_eq_of_forall₂ (forall₂_square partners each each' ?_))
  intro a member b c d views reveals reveals'
  obtain ⟨d', revealed, view⟩ := inner a member views reveals
  rw [Except.ok.inj (reveals'.symm.trans revealed)]
  exact view

theorem revealsAlike_mapping {entries : Mapping Tree} (inner : ∀ e ∈ entries, e.2.RevealsAlike) :
    (Tree.mapping entries).RevealsAlike := by
  intro u r same done
  obtain ⟨others, rfl, views⟩ := view_mapping same
  obtain ⟨shown, each, revealed⟩ := revealAll_mapping_eq_ok.mp done
  obtain ⟨shown', each'⟩ : ∃ shown' : Mapping Tree, List.Forall₂
      (fun e s => e.1 = s.1 ∧ e.2.revealAll = .ok s.2) others shown' := by
    refine exists_forall₂ fun e member => ?_
    obtain ⟨d, inside, -, view⟩ := mem_of_view views member
    obtain ⟨c, -, -, reveals⟩ := exists_right each d inside
    obtain ⟨a, reveals', -⟩ := inner d inside view reveals
    exact ⟨(e.1, a), rfl, reveals'⟩
  have shownViews : viewEntries shown = viewEntries shown' := by
    refine viewEntries_of_made (fun t s => t.revealAll = .ok s) views each each' ?_
    intro d member t t' u' view reveals reveals'
    obtain ⟨a, revealed, view'⟩ := inner d member view reveals
    rw [Except.ok.inj (reveals'.symm.trans revealed)]
    exact view'
  obtain ⟨s, other, view⟩ := reveal_of_view (t := .mapping shown) (u := .mapping shown')
    (congrArg View.mapping shownViews) revealed
  exact ⟨s, revealAll_mapping_eq_ok.mpr ⟨shown', each', other⟩, view⟩

/-- Revealing all of trees of one view yields trees of one view. -/
theorem revealAll_of_view (t : Tree) : t.RevealsAlike := by
  induction t using children_induction with
  | node t below =>
    cases t with
    | list items => exact revealsAlike_list (allChildren_list.mp below)
    | mapping entries => exact revealsAlike_mapping (allChildren_mapping.mp below)
    | _ =>
      intro u r same done
      rw [view_leaf rfl same]
      exact ⟨r, done, rfl⟩

end RevealAll

end Tree

section Calls

open ConfigSweep.Tree

/-- A call is told from the view of the tree that it is read from. -/
theorem Call.ofTree_of_view {t u : Tree} (same : t.SameView u) {call : Call}
    (done : Call.ofTree t = .ok call) : Call.ofTree u = .ok call := by
  cases t with
  | list items => cases done
  | mapping entries =>
    obtain ⟨others, rfl, views⟩ := view_mapping same
    dsimp only [Call.ofTree] at done
    split at done
    · next found read =>
      obtain rfl : found = call := Except.ok.inj done
      have leaves := Call.leaves_of_ofEntries read
      have partners : ∀ e ∈ others, e ∈ entries := by
        intro e member
        obtain ⟨d, inside, key, view⟩ := mem_of_view views member
        have equal : d = e := Prod.ext key (view_leaf (leaves d inside) view).symm
        exact equal ▸ inside
      have values : ∀ key, Mapping.get? key others = Mapping.get? key entries := by
        intro key
        cases found : Mapping.get? key entries with
        | none =>
          have absent := has_of_view views key
          unfold Mapping.has at absent
          rw [found] at absent
          exact Option.not_isSome_iff_eq_none.mp (by simp [← absent])
        | some v =>
          obtain ⟨w, found', view⟩ := get?_of_view views found
          rw [found', view_leaf (leaves _ (Mapping.mem_of_get? found)) view]
      have other : Call.ofEntries others = .ok found := by
        obtain ⟨⟨⟩, checked, fields⟩ := bind_eq_ok.mp read
        refine bind_eq_ok.mpr ⟨(), forM_eq_ok.mpr fun e member =>
          forM_eq_ok.mp checked e (partners e member), ?_⟩
        unfold Record.required Record.fieldOr at fields ⊢
        rw [values, values]
        exact fields
      rw [Call.ofTree, other]
    · cases done
  | _ =>
    rw [view_leaf rfl same]
    exact done

theorem index?_of_view {t u : Tree} (same : t.SameView u) : t.index? = u.index? := by
  cases t with
  | list items =>
    obtain ⟨others, rfl, -⟩ := view_list same
    rfl
  | mapping entries =>
    obtain ⟨others, rfl, -⟩ := view_mapping same
    rfl
  | _ => rw [view_leaf rfl same]

theorem EditValue.ofTree_follows {t u : Tree} (same : t.SameView u) :
    (EditValue.ofTree t).Follows EditValue.Alike (EditValue.ofTree u) := by
  cases t with
  | mapping entries =>
    obtain ⟨others, rfl, views⟩ := view_mapping same
    unfold EditValue.ofTree
    dsimp only
    cases found : Mapping.get? Keyword.eval entries with
    | none =>
      have absent := map_get?_of_view views Keyword.eval
      rw [found] at absent
      rw [Option.map_eq_none_iff.mp absent.symm]
      exact .ok (.literal same)
    | some payload =>
      obtain ⟨payload', found', view⟩ := get?_of_view views found
      rw [found', length_of_view views]
      dsimp only
      split
      · exact .fail _ _
      · intro value done
        obtain ⟨call, read, rfl⟩ := map_eq_ok.mp done
        exact ⟨.computed call, map_eq_ok.mpr ⟨call, Call.ofTree_of_view view read, rfl⟩, .computed call⟩
  | list items =>
    obtain ⟨others, rfl, -⟩ := view_list same
    exact .ok (.literal same)
  | _ =>
    rw [view_leaf rfl same]
    exact .ok (.literal rfl)

end Calls

namespace Edit

open ConfigSweep.Tree

theorem positionAndValue_follows (operation : String) {t u : Tree} (same : t.SameView u) :
    (positionAndValue operation t).Follows
      (fun a b => a.1 = b.1 ∧ Option.Rel EditValue.Alike a.2 b.2) (positionAndValue operation u) := by
  cases t with
  | list items =>
    obtain ⟨others, rfl, views⟩ := view_list same
    match items, others, forall₂_of_map_eq views with
    | [position, value], [position', value'], .cons positions (.cons values .nil) =>
      unfold positionAndValue
      dsimp only
      rw [index?_of_view positions]
      split
      · exact .fail _ _
      · exact (EditValue.ofTree_follows values).bind fun _ _ alike => .ok ⟨rfl, .some alike⟩
    | [], _, _ => exact .fail _ _
    | [_], _, _ => exact .fail _ _
    | _ :: _ :: _ :: _, _, _ => exact .fail _ _
  | mapping entries => exact .fail _ _
  | _ =>
    rw [view_leaf rfl same]
    unfold positionAndValue
    dsimp only
    split
    · exact .fail _ _
    · exact .ok ⟨rfl, .none⟩

theorem ofOperation_follows (operation : String) {t u : Tree} (same : t.SameView u) :
    (ofOperation operation t).Follows Alike (ofOperation operation u) := by
  unfold ofOperation
  split
  · refine (positionAndValue_follows operation same).bind ?_
    rintro ⟨position, value⟩ ⟨_, value'⟩ ⟨rfl, values⟩
    exact .ok (.insert position values)
  · split
    · refine (positionAndValue_follows operation same).bind ?_
      rintro ⟨position, value⟩ ⟨_, value'⟩ ⟨rfl, values⟩
      exact .ok (.overwrite position values)
    · split
      · rw [index?_of_view same]
        split
        · exact .fail _ _
        · exact .ok (.remove _)
      · exact .fail _ _

theorem ofTree_follows {t u : Tree} (same : t.SameView u) :
    (ofTree t).Follows Alike (ofTree u) := by
  cases t with
  | mapping entries =>
    obtain ⟨others, rfl, views⟩ := view_mapping same
    match entries, views with
    | [], _ => exact .fail _ _
    | _ :: _ :: _, _ => exact .fail _ _
    | [(operation, argument)], views =>
      have short := length_of_view views
      obtain ⟨⟨operation', argument'⟩, rfl⟩ := List.length_eq_one_iff.mp short.symm
      obtain ⟨d, inside, key, view⟩ := mem_of_view views List.mem_cons_self
      obtain rfl := List.mem_singleton.mp inside
      obtain rfl : operation = operation' := key
      have reveals : (Stopped.outcome argument.revealAll).Follows SameView
          (Stopped.outcome argument'.revealAll) := by
        intro shown done
        obtain ⟨s, other, views⟩ := revealAll_of_view _ view (Stopped.outcome_eq_ok.mp done)
        exact ⟨s, Stopped.outcome_eq_ok.mpr other, views⟩
      exact reveals.bind fun _ _ shown => ofOperation_follows operation shown
  | list items => exact .fail _ _
  | _ => exact .fail _ _

end Edit

namespace Script

open ConfigSweep.Tree

/-- The instructions of mappings of one view are of one view, in the same order. -/
theorem inOrder_follows {entries others : Mapping Tree}
    (views : viewEntries entries = viewEntries others) :
    (inOrder entries).Follows (List.Forall₂ SameView) (inOrder others) := by
  intro instructions done
  obtain ⟨s, filled, done⟩ := bind_eq_ok.mp done
  obtain ⟨tokens, rfl⟩ := slots_eq_ok.mp filled
  split at done
  · cases done
  next covers =>
  obtain rfl := Except.ok.inj done
  have tokens' : ∀ e ∈ others, Position.isToken e.1 = true := by
    intro e member
    obtain ⟨d, inside, key, -⟩ := mem_of_view views member
    exact key ▸ tokens d inside
  have same := ofEntries_of_view views
  have lengths : (SparseList.ofEntries entries).length = (SparseList.ofEntries others).length := by
    rw [← SparseList.length_mapValues view, same, SparseList.length_mapValues]
  rw [lengths, length_of_view views] at covers
  refine ⟨(SparseList.ofEntries others).slots.map (·.2), ?_, ?_⟩
  · refine bind_eq_ok.mpr ⟨_, slots_eq_ok.mpr ⟨tokens', rfl⟩, ?_⟩
    rw [if_neg covers]
    rfl
  · have values := congrArg (fun s => s.slots.map Prod.snd) same
    refine forall₂_of_map_eq ?_
    simpa [SparseList.mapValues, Function.comp_def] using values

/-- Scripts that are read from trees of one view hold the same instructions. -/
theorem ofTree_follows {t u : Tree} (same : t.SameView u) :
    (ofTree t).Follows (List.Forall₂ Edit.Alike) (ofTree u) := by
  have edits : ∀ {items others : List Tree}, List.Forall₂ SameView items others →
      Outcome.Follows (List.Forall₂ Edit.Alike) (items.mapM Edit.ofTree) (others.mapM Edit.ofTree) :=
    fun views => Outcome.Follows.mapM views fun _ _ view => Edit.ofTree_follows view
  cases t with
  | list items =>
    obtain ⟨others, rfl, views⟩ := view_list same
    exact edits (forall₂_of_map_eq views)
  | mapping entries =>
    obtain ⟨others, rfl, views⟩ := view_mapping same
    exact (inOrder_follows views).bind fun _ _ instructions => edits instructions
  | _ => exact .fail _ _

end Script

end ConfigSweep
