import ConfigSweep.Proofs.Mirroring
import ConfigSweep.Proofs.Overlay

/-!
# Merging into lists in disguise

A patch of plain data is merged into a base as into the base with all its lists revealed, though the
merge reveals only the nodes that it comes to, one at a time: the second run succeeds as well, and
revealing all lists of the first result gives the second.
-/

namespace ConfigSweep

/-- Sparse lists with related values at the same positions are listed as related values. -/
theorem SparseList.forall₂_toList {α β : Type} {relation : α → β → Prop} {s : SparseList α}
    {s' : SparseList β}
    (related : List.Forall₂ (fun a b => a.1 = b.1 ∧ relation a.2 b.2) s.slots s'.slots)
    {items : List α} (lists : s.toList = .ok items) :
    ∃ items', s'.toList = .ok items' ∧ List.Forall₂ relation items items' := by
  obtain ⟨gapless, rfl⟩ := toList_eq_ok.mp lists
  have positions : s.slots.map Prod.fst = s'.slots.map Prod.fst :=
    map_eq_of_forall₂ (related.imp fun _ _ both => both.1)
  refine ⟨_, toList_eq_ok.mpr ⟨checkGapless_congr positions ▸ gapless, rfl⟩, ?_⟩
  rw [List.forall₂_map_left_iff, List.forall₂_map_right_iff]
  exact related.imp fun _ _ both => both.2

namespace Tree

/-- The second tree is the first with all its lists revealed. -/
def Shows (t s : Tree) : Prop :=
  t.revealAll = .ok s

/-- The second tree is the first with all lists below its root revealed. -/
inductive ShowsBelow : Tree → Tree → Prop where
  | leaf {t : Tree} (leaf : t.isLeaf = true) : ShowsBelow t t
  | list {items shown : List Tree} (each : List.Forall₂ Shows items shown) :
      ShowsBelow (.list items) (.list shown)
  | mapping {entries shown : Mapping Tree}
      (each : List.Forall₂ (fun e s => e.1 = s.1 ∧ e.2.Shows s.2) entries shown) :
      ShowsBelow (.mapping entries) (.mapping shown)

variable {t u c v v' shown : Tree} {step : Step}

/-- All lists are revealed when those below the root are and then the root is. -/
theorem shows_iff : t.Shows shown ↔ ∃ u, ShowsBelow t u ∧ u.reveal = .ok shown := by
  cases t with
  | list items =>
    rw [Shows, revealAll_list_eq_ok]
    constructor
    · rintro ⟨others, each, rfl⟩
      exact ⟨_, .list each, rfl⟩
    · rintro ⟨_, below, reveals⟩
      cases below with
      | leaf leaf => cases leaf
      | list each => exact ⟨_, each, (Except.ok.inj reveals).symm⟩
  | mapping entries =>
    rw [Shows, revealAll_mapping_eq_ok]
    constructor
    · rintro ⟨others, each, reveals⟩
      exact ⟨_, .mapping each, reveals⟩
    · rintro ⟨_, below, reveals⟩
      cases below with
      | leaf leaf => cases leaf
      | mapping each => exact ⟨_, each, reveals⟩
  | _ =>
    constructor
    · intro shows
      exact ⟨_, .leaf rfl, shows⟩
    · rintro ⟨_, ⟨-⟩, reveals⟩
      exact reveals

namespace ShowsBelow

/-- Lists below the root are no matter for the root itself to be one in disguise. -/
theorem reveal (below : ShowsBelow t u) (done : t.reveal = .ok shown) :
    ∃ shown', u.reveal = .ok shown' ∧ ShowsBelow shown shown' := by
  cases below with
  | leaf leaf =>
    obtain rfl : t = shown := by
      cases t with
      | list items => cases leaf
      | mapping entries => cases leaf
      | _ => exact Except.ok.inj done
    exact ⟨t, done, .leaf leaf⟩
  | list each =>
    obtain rfl := Except.ok.inj done
    exact ⟨_, rfl, .list each⟩
  | @mapping entries others each =>
    have keys : Mapping.keys entries = Mapping.keys others :=
      map_eq_of_forall₂ (each.imp fun _ _ both => both.1)
    have kinds : Mapping.isPositional entries = Mapping.isPositional others :=
      Mapping.isPositional_of_perm (.of_eq keys)
    cases reveal_iff.mp done with
    | itself plain => exact ⟨_, reveal_plain (kinds ▸ plain), .mapping each⟩
    | list positional within lists =>
      obtain ⟨items', lists', related⟩ :=
        SparseList.forall₂_toList (SparseList.forall₂_ofEntries each) lists
      refine ⟨.list items', reveal_iff.mpr (.list (kinds ▸ positional) ?_ lists'), .list related⟩
      intro e member position token
      obtain ⟨d, inside, same, -⟩ := exists_left each e member
      rw [← each.length_eq]
      exact within d inside position (same ▸ token)

theorem child? (below : ShowsBelow t u) (there : t.child? step = some c) :
    ∃ c', u.child? step = some c' ∧ c.Shows c' := by
  have related : Option.Rel Shows (t.child? step) (u.child? step) := by
    cases below with
    | leaf leaf =>
      rw [child?_leaf leaf]
      exact .none
    | list each =>
      cases step with
      | key name => exact .none
      | index position => exact forall₂_getElem? each position
    | mapping each =>
      cases step with
      | key name => exact Mapping.rel_get? each name
      | index position => exact .none
  rw [there] at related
  generalize u.child? step = other at related
  cases related with
  | some shows => exact ⟨_, rfl, shows⟩

theorem setChild (below : ShowsBelow t u) (step : Step) (shows : v.Shows v') :
    ShowsBelow (t.setChild step v) (u.setChild step v') := by
  cases below with
  | leaf leaf =>
    cases t with
    | list items => cases leaf
    | mapping entries => cases leaf
    | _ => cases step <;> exact .leaf rfl
  | list each =>
    cases step with
    | key name => exact .list each
    | index position => exact .list (forall₂_set each position shows)
  | @mapping entries others each =>
    cases step with
    | index position => exact .mapping each
    | key name =>
      rw [Tree.setChild, Tree.setChild, Mapping.has_congr each]
      split
      · exact .mapping (Mapping.forall₂_insert each name shows)
      · exact .mapping each

end ShowsBelow

/-- A node that is revealed to be merged into, and the node with all its lists revealed before. -/
theorem Shows.opened {s : Tree} (shows : t.Shows s) (done : t.reveal = .ok shown) :
    ∃ shown', s.reveal = .ok shown' ∧ ShowsBelow shown shown' := by
  obtain ⟨u, below, reveals⟩ := shows_iff.mp shows
  obtain ⟨shown', reveals', alike⟩ := below.reveal done
  obtain rfl := Except.ok.inj (reveals.symm.trans reveals')
  exact ⟨s, reveal_reveal reveals, alike⟩

/-- A node that is revealed at the end of a merge. -/
theorem ShowsBelow.settled (below : ShowsBelow t u) (done : t.reveal = .ok shown) :
    ∃ shown', u.reveal = .ok shown' ∧ shown.Shows shown' := by
  obtain ⟨shown', reveals, alike⟩ := below.reveal done
  exact ⟨shown', reveals, shows_iff.mpr ⟨shown', alike, reveal_reveal reveals⟩⟩

end Tree

namespace Merge

open ConfigSweep.Tree

variable {evaluator : Evaluator}

/-- Merging the patch into a node with its lists revealed is merging it into the node. -/
abbrev Transparent (evaluator : Evaluator) (p : Patch) : Prop :=
  Respects Shows (node evaluator p) Shows

section Opening

theorem openMapping_respects (noEntries : Bool) :
    Respects Shows (fun focus root => openMapping focus noEntries root) ShowsBelow := by
  refine .revealed (fun _ _ _ => Shows.opened) fun shown shown' below => ?_
  cases below with
  | leaf leaf =>
    have shape : shown.shape = .leaf := beq_iff_eq.mp leaf
    dsimp only
    rw [shape]
    exact .write (.mapping .nil)
  | mapping each => exact .ok
  | list each =>
    cases noEntries with
    | true => exact .ok
    | false => exact .fail _

theorem ensureKey_respects (key : String) :
    Respects ShowsBelow (fun focus root => ensureKey focus key root) ShowsBelow := by
  intro focus root root' t t' there there' below r done
  obtain ⟨m, found, replaced⟩ := ensureKey_eq_ok.mp done
  obtain rfl := Option.some.inj (there.symm.trans found)
  cases below with
  | leaf leaf => cases leaf
  | @mapping _ others each =>
    obtain ⟨r', replaced'⟩ := exists_replace? there' (.mapping (opened key others))
    refine ⟨r', ensureKey_eq_ok.mpr ⟨others, there', replaced'⟩, _, _, replaced, replaced', ?_⟩
    unfold opened
    rw [Mapping.has_congr each]
    split
    · exact .mapping each
    · have blank : Shows .null .null := rfl
      exact .mapping (Mapping.forall₂_insert each key blank)

theorem blanks_show (length : Nat) :
    ShowsBelow (.list (List.replicate length .null)) (.list (List.replicate length .null)) :=
  .list (List.forall₂_same.mpr fun _ member => List.eq_of_mem_replicate member ▸ rfl)

theorem openList_respects (length : Nat) :
    Respects Shows (fun focus root => openList focus length root) ShowsBelow := by
  refine .revealed (fun _ _ _ => Shows.opened) fun shown shown' below => ?_
  cases below with
  | leaf leaf =>
    cases shown with
    | list items => cases leaf
    | mapping m => cases leaf
    | _ => exact .write (blanks_show length)
  | mapping each => exact .fail _
  | list each =>
    dsimp only
    rw [each.length_eq]
    split
    · exact .ok
    · exact .fail _

end Opening

section Nodes

/-- A child is merged into like its partner, and both are put back. -/
theorem child_respects {p : Patch} (transparent : Transparent evaluator p) {step : Step}
    {down : Focus → Focus} (path : ∀ focus, (down focus).path = focus.path ++ [step]) :
    Respects ShowsBelow (fun focus root => node evaluator p (down focus) root) ShowsBelow := by
  refine .child transparent (node_attached evaluator p) path fun t t' c below there => ?_
  obtain ⟨c', there', shows⟩ := below.child? there
  exact ⟨c', there', shows, fun v v' => below.setChild step⟩

theorem slots_respects {ps : List (Nat × Patch)}
    (each : ∀ slot ∈ ps, Transparent evaluator slot.2) (length : Nat) :
    Respects ShowsBelow (fun focus root => slots evaluator ps length focus root) ShowsBelow := by
  induction ps with
  | nil => exact .ok
  | cons slot rest ih =>
    obtain ⟨position, p⟩ := slot
    rw [List.forall_mem_cons] at each
    unfold slots
    split
    · exact .fail _
    · exact .bind (child_respects each.1 fun _ => rfl) (ih each.2)

theorem values_respects {entries : List (String × Patch)}
    (each : ∀ e ∈ entries, Transparent evaluator e.2) :
    Respects ShowsBelow (fun focus root => values evaluator entries focus root) ShowsBelow := by
  induction entries with
  | nil => exact .ok
  | cons e rest ih =>
    obtain ⟨key, p⟩ := e
    rw [List.forall_mem_cons] at each
    unfold values
    exact .bind (ensureKey_respects key) (.bind (child_respects each.1 fun _ => rfl) (ih each.2))

theorem list_respects {ps : List Patch} (each : ∀ p ∈ ps, Transparent evaluator p) :
    Respects Shows (fun focus root => openList focus ps.length root >>= fun root =>
      items evaluator ps 0 focus root) ShowsBelow := by
  simp only [items_eq_slots (Nat.le_of_eq (Nat.zero_add ps.length))]
  refine .bind (openList_respects ps.length) (slots_respects (fun slot member => ?_) _)
  refine each slot.2 ?_
  rw [← SparseList.values_slotsOf ps 0]
  exact List.mem_map_of_mem member

theorem sparse_respects {s : SparseList Patch}
    (each : ∀ slot ∈ s.slots, Transparent evaluator slot.2) :
    Respects Shows (fun focus root => openSlots focus s root >>= fun opened =>
      slots evaluator s.slots opened.1 focus opened.2) ShowsBelow := by
  have fresh : Respects ShowsBelow (fun focus root => s.checkGapless >>= fun _ =>
      focus.write (.list (List.replicate s.size .null)) root >>= fun root =>
        slots evaluator s.slots s.size focus root) ShowsBelow :=
    .given fun _ _ => .bind (.write (blanks_show s.size)) (slots_respects each s.size)
  unfold openSlots
  simp only [bind_assoc]
  refine .revealed (fun _ _ _ => Shows.opened) fun shown shown' below => ?_
  cases below with
  | leaf leaf =>
    cases shown with
    | list items => cases leaf
    | mapping m => cases leaf
    | _ =>
      simp only [bind_assoc, pure_bind]
      exact fresh
  | mapping related => exact .fail _
  | @list items others related =>
    simp only [pure_bind, related.length_eq]
    exact slots_respects each others.length

theorem keyed_respects {entries : List (String × Patch)}
    (each : ∀ e ∈ entries, Transparent evaluator e.2) :
    Respects Shows (fun focus root => keyed evaluator { entries } focus root) ShowsBelow := by
  unfold keyed
  exact .bind (openMapping_respects _) (.bind (values_respects each) .ok)

/-- Every literal patch is merged into a node with its lists revealed as into the node. -/
theorem node_transparent {p : Patch} (literal : p.Literal) (evaluator : Evaluator) :
    Transparent evaluator p := by
  induction literal with
  | @intro p here within ih =>
    cases p with
    | scalar value =>
      have shows : ShowsBelow value value := .leaf here
      exact .settle (.write shows) _ _ fun _ _ _ => ShowsBelow.settled
    | fromPrevious call => exact here.elim
    | fromRoot call => exact here.elim
    | edits script payload => exact here.elim
    | list ps => exact .settle (list_respects ih) _ _ fun _ _ _ => ShowsBelow.settled
    | sparse s =>
      obtain ⟨slots⟩ := s
      have each : ∀ slot ∈ slots, Transparent evaluator slot.2 :=
        fun slot member => ih slot.2 (List.mem_map_of_mem member)
      have merges := sparse_respects (s := ⟨slots⟩) each
      exact .settle merges _ _ fun _ _ _ => ShowsBelow.settled
    | keyed patch =>
      obtain ⟨entries, groups, upserts⟩ := patch
      obtain ⟨-, -, rfl, rfl⟩ := here
      have each : ∀ e ∈ entries, Transparent evaluator e.2 :=
        fun e member => ih e.2 (KeyedPatch.mem_patches_of_entry member)
      exact .settle (keyed_respects each) _ _ fun _ _ _ => ShowsBelow.settled

end Nodes

end Merge

namespace Tree

/-- Revealing lists brings up no reserved key. -/
theorem checkPlain_of_shows {t s : Tree} (shows : t.Shows s) (plain : t.checkPlain = .ok ()) :
    s.checkPlain = .ok () := by
  have unreserved : t.Everywhere Unreserved := (checkPlainAt_eq_ok t .root).mp plain
  refine (checkPlainAt_eq_ok s .root).mpr (Everywhere.revealAll ?_ ?_ unreserved shows)
  · nofun
  · rintro m n keys free _ ⟨⟩ key member
    exact free m rfl key (keys ▸ member)

/-- A patch of plain data that is merged into a base is merged into the base with all its lists
revealed as well, and the result is that of the first merge with all its lists revealed. -/
theorem merge_revealAll (evaluator : Evaluator) (base shown patch merged : Tree)
    (distinct : patch.Distinct) (unreserved : patch.Everywhere Unreserved) (silent : patch.Silent)
    (reveals : base.revealAll = .ok shown) (done : merge evaluator base patch = .ok merged) :
    ∃ result, merge evaluator shown patch = .ok result ∧ merged.revealAll = .ok result := by
  obtain ⟨p, reads, merges, plain⟩ := merge_eq_ok.mp done
  have literal := Patch.literal_of_ofTree (everywhere_plainData distinct unreserved silent) reads
  obtain ⟨result, merges', u, u', replaced, replaced', shows⟩ :=
    Merge.node_transparent literal evaluator .root rfl rfl reveals merged merges
  obtain rfl := Option.some.inj replaced
  obtain rfl := Option.some.inj replaced'
  exact ⟨u', merge_eq_ok.mpr ⟨p, reads, merges', checkPlain_of_shows shows plain⟩, shows⟩

section Rows

/-- The rows and one of their items are lists in disguise, and so are the seeds, which have two tokens
for one position. -/
def rowsBase : Tree :=
  .mapping [
    ("rows", .mapping [(Position.token 1, .int 3),
      (Position.token 0, .mapping [(Position.token 1, .int 2), (Position.token 0, .int 1)])]),
    ("seeds", .mapping [("__IDX__0", .int 7), ("__IDX__00", .int 8)])]

def rowsShown : Tree :=
  .mapping [("rows", .list [.list [.int 1, .int 2], .int 3]), ("seeds", .list [.int 8])]

/-- The merge comes to the rows, but neither into the first of them nor to the seeds. -/
def rowsPatch : Tree :=
  .mapping [("rows", .mapping [(Position.token 1, .list [.int 5])])]

def rowsMerged : Tree :=
  .mapping [
    ("rows", .list [.mapping [(Position.token 1, .int 2), (Position.token 0, .int 1)],
      .list [.int 5]]),
    ("seeds", .mapping [("__IDX__0", .int 7), ("__IDX__00", .int 8)])]

theorem merge_revealAll_rows : rowsBase.revealAll = .ok rowsShown ∧
    merge .refusing rowsBase rowsPatch = .ok rowsMerged ∧
    ∃ result, merge .refusing rowsShown rowsPatch = .ok result ∧
      rowsMerged.revealAll = .ok result := by
  have reveals : rowsBase.revealAll = .ok rowsShown := by with_unfolding_all rfl
  have merges : merge .refusing rowsBase rowsPatch = .ok rowsMerged := by with_unfolding_all rfl
  have unreserved : rowsPatch.Everywhere Unreserved := (checkPlainAt_eq_ok rowsPatch .root).mp rfl
  exact ⟨reveals, merges, merge_revealAll .refusing rowsBase rowsShown rowsPatch rowsMerged
    (by decide) unreserved (by decide) reveals merges⟩

end Rows

end Tree

end ConfigSweep
