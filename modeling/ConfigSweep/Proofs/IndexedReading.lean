import ConfigSweep.Proofs.ReadAnywhere

/-!
# Reading back from indexed trees

What can be read of an indexed tree can be read of the tree itself: a malformed directive is refused
however the lists around and inside it are written.
-/

namespace ConfigSweep

theorem Tree.mem_indexedItems {items : List Tree} {t : Tree} (member : t ∈ items) (start : Nat) :
    ∃ position, (Position.token position, t.indexed) ∈ indexedItems items start := by
  induction items generalizing start with
  | nil => cases member
  | cons first rest ih =>
    rcases List.mem_cons.mp member with rfl | later
    · exact ⟨start, List.mem_cons_self⟩
    · obtain ⟨position, inside⟩ := ih later (start + 1)
      exact ⟨position, List.mem_cons_of_mem _ inside⟩

theorem Tree.mem_indexedEntries {entries : List (String × Tree)} {e : String × Tree}
    (member : e ∈ entries) : (e.1, e.2.indexed) ∈ indexedEntries entries := by
  rw [indexedEntries_eq]
  exact List.mem_map.mpr ⟨e, member, rfl⟩

/-- A run over items gives the results of the run over changed items when each item does. -/
theorem mapM_eq_ok_of_map_eq_ok {ε α β γ : Type} {f : α → Except ε β} {g : γ → Except ε β}
    {change : α → γ} {items : List α} {results : List β}
    (same : ∀ a ∈ items, ∀ b, g (change a) = .ok b → f a = .ok b)
    (done : (items.map change).mapM g = .ok results) : items.mapM f = .ok results := by
  rw [mapM_eq_ok, List.forall₂_map_left_iff] at done
  rw [mapM_eq_ok]
  exact ((List.forall₂_and_left items results).mpr ⟨same, done⟩).imp
    fun a b both => both.1 b both.2

section Scripts

open ConfigSweep.Tree

/-- What can be revealed of the indexed tree can be revealed of the tree. -/
theorem Tree.revealAll_of_indexed {t : Tree} (filled : t.ListsFilled) (fit : t.ListsFit) {r : Tree}
    (done : t.indexed.revealAll = .ok r) : t.revealAll = .ok r := by
  induction t using children_induction generalizing r with
  | node t ih =>
    have below : t.AllChildren fun t => ∀ r, t.indexed.revealAll = .ok r → t.revealAll = .ok r :=
      fun c member r => ih c member (filled.child c member) (fit.child c member)
    cases t with
    | list items =>
      obtain ⟨shown, each, -⟩ := revealAll_mapping_eq_ok.mp done
      obtain ⟨ss, reveals⟩ : ∃ ss, List.Forall₂ (fun t s => t.revealAll = .ok s) items ss := by
        refine exists_forall₂ fun a member => ?_
        obtain ⟨position, listed⟩ := mem_indexedItems member 0
        obtain ⟨s, -, -, reveals⟩ := exists_right each _ listed
        exact ⟨s.2, allChildren_list.mp below a member s.2 reveals⟩
      have whole : (Tree.list items).revealAll = .ok (.list ss) :=
        revealAll_list_eq_ok.mpr ⟨ss, reveals, rfl⟩
      have same := revealAll_indexed _ _ filled fit whole
      rw [done] at same
      rw [whole, Except.ok.inj same]
    | mapping entries =>
      obtain ⟨shown, each, reveals⟩ := revealAll_mapping_eq_ok.mp done
      rw [indexedEntries_eq, List.forall₂_map_left_iff] at each
      refine revealAll_mapping_eq_ok.mpr ⟨shown, ?_, reveals⟩
      exact ((List.forall₂_and_left entries shown).mpr ⟨allChildren_mapping.mp below, each⟩).imp
        fun e s both => ⟨both.2.1, both.1 s.2 both.2.2⟩
    | _ => exact done

/-- An instruction can be read if it can with its argument indexed. -/
theorem Edit.ofTree_of_indexed {t : Tree} (filled : t.ListsFilled) (fit : t.ListsFit) {edit : Edit}
    (done : Edit.ofTree t.indexed = .ok edit) : Edit.ofTree t = .ok edit := by
  cases t with
  | list items =>
    cases items with
    | nil => exact absurd rfl filled.1
    | cons first rest =>
      cases rest with
      | cons second rest => cases done
      | nil =>
        -- the only key is a token, which names no operation
        obtain ⟨argument, -, done⟩ := bind_eq_ok.mp done
        unfold ofOperation at done
        rw [if_neg (by decide), if_neg (by decide), if_neg (by decide)] at done
        cases done
  | mapping entries =>
    cases entries with
    | nil => cases done
    | cons e rest =>
      cases rest with
      | cons second rest => cases done
      | nil =>
        obtain ⟨argument, reveals, done⟩ := bind_eq_ok.mp done
        have inner := revealAll_of_indexed filled.2.1 fit.2.1 (Stopped.outcome_eq_ok.mp reveals)
        exact bind_eq_ok.mpr ⟨argument, Stopped.outcome_eq_ok.mpr inner, done⟩
  | _ => cases done

theorem Script.ofTree_of_indexed {t : Tree} (filled : t.ListsFilled) (fit : t.ListsFit)
    {script : Script} (done : Script.ofTree t.indexed = .ok script) :
    Script.ofTree t = .ok script := by
  cases t with
  | list items =>
    have short : items.length < Word.bound := fit.1
    obtain ⟨instructions, ordered, edits⟩ := bind_eq_ok.mp done
    rw [Script.inOrder_indexedItems short] at ordered
    obtain rfl := Except.ok.inj ordered
    refine mapM_eq_ok_of_map_eq_ok (fun item member edit => ?_) edits
    exact Edit.ofTree_of_indexed (everywhereItems_iff.mp filled.2 item member)
      (everywhereItems_iff.mp fit.2 item member)
  | mapping entries =>
    obtain ⟨instructions, indexedOrder, edits⟩ := bind_eq_ok.mp done
    obtain ⟨originals, ordered, rfl⟩ := Script.inOrder_indexedEntries.mp indexedOrder
    refine bind_eq_ok.mpr ⟨originals, ordered,
      mapM_eq_ok_of_map_eq_ok (fun item member edit => ?_) edits⟩
    obtain ⟨e, among, rfl⟩ := Script.mem_inOrder ordered item member
    exact Edit.ofTree_of_indexed (everywhereEntries_iff.mp filled.2 e among)
      (everywhereEntries_iff.mp fit.2 e among)
  | _ => cases done

/-- A call names fields only. -/
theorem Call.names_of_ofEntries {entries : Mapping Tree} {call : Call}
    (read : Call.ofEntries entries = .ok call) : ∀ e ∈ entries, e.1 ∈ Call.fieldNames := by
  obtain ⟨⟨⟩, checked, -⟩ := bind_eq_ok.mp read
  intro e member
  have here := forM_eq_ok.mp checked e member
  dsimp only at here
  split at here
  · next key => simp [key, Call.fieldNames]
  · next key => simp [key, Call.fieldNames]
  · cases here

theorem Call.ofTree_of_indexed {t : Tree} (filled : t.ListsFilled) {call : Call}
    (done : Call.ofTree t.indexed = .ok call) : Call.ofTree t = .ok call := by
  cases t with
  | list items =>
    cases items with
    | nil => exact absurd rfl filled.1
    | cons first rest =>
      dsimp only [indexed, Call.ofTree] at done
      split at done
      · next read =>
        have name : Position.token 0 ∈ Call.fieldNames :=
          Call.names_of_ofEntries read _ List.mem_cons_self
        exact absurd name (by decide)
      · cases done
  | mapping entries =>
    have same : indexedEntries entries = entries := by
      dsimp only [indexed, Call.ofTree] at done
      split at done
      · next read =>
        rw [indexedEntries_eq]
        refine (List.map_congr_left fun e member => ?_).trans (List.map_id entries)
        have leaf := Call.leaves_of_ofEntries read _ (mem_indexedEntries member)
        have unchanged : e.2.indexed = e.2 := by
          cases value : e.2 with
          | list items => rw [value] at leaf; cases leaf
          | mapping m => rw [value] at leaf; cases leaf
          | _ => rfl
        rw [unchanged]
        rfl
      · cases done
    rw [indexed, same] at done
    exact done
  | _ => exact done

end Scripts

namespace Patch

/-- What can be read of the indexed tree, as a node or as upserts, can be read of the tree. -/
structure ReadsBack (t : Tree) : Prop where
  node : ∀ trail p, ofTreeAt t.indexed trail = .ok p → ∀ other, ∃ q, ofTreeAt t other = .ok q
  upserts : ∀ trail us, upsertsOf t.indexed trail = .ok us →
    ∀ other, ∃ vs, upsertsOf t other = .ok vs

section Parts

variable {trail other : Trail} {items : List Tree} {entries : List (String × Tree)}

theorem exists_items (back : ∀ t ∈ items, ReadsBack t) {below : String → Trail}
    {named : List (String × Patch)} (read : NamedFrom below (Tree.indexedItems items 0) named)
    (start : Nat) : ∃ ps, ofItems items start other = .ok ps := by
  have each : ∀ t ∈ items, ∃ p, ofTree t = .ok p := by
    intro t member
    obtain ⟨position, listed⟩ := Tree.mem_indexedItems member 0
    obtain ⟨n, -, -, reads⟩ := exists_right read _ listed
    exact (back t member).node _ _ reads .root
  obtain ⟨ps, trees⟩ := exists_forall₂ each
  exact ⟨ps, ofItems_eq_ok.mpr trees⟩

theorem exists_named (back : ∀ e ∈ entries, ReadsBack e.2) {below below' : String → Trail}
    {named : List (String × Patch)} (read : NamedFrom below (Tree.indexedEntries entries) named) :
    ∃ named', NamedFrom below' entries named' := by
  refine exists_forall₂ fun e member => ?_
  obtain ⟨n, -, -, reads⟩ := exists_right read _ (Tree.mem_indexedEntries member)
  obtain ⟨q, reads'⟩ := (back e member).node _ _ reads (below' e.1)
  exact ⟨(e.1, q), rfl, reads'⟩

theorem exists_parts_of_indexed (back : ∀ e ∈ entries, ReadsBack e.2) {parts : List Part}
    (read : PartsFrom trail (Tree.indexedEntries entries) parts) :
    ∃ parts', PartsFrom other entries parts' := by
  refine exists_forall₂ fun e member => ?_
  obtain ⟨part, -, from'⟩ := exists_right read _ (Tree.mem_indexedEntries member)
  cases from' with
  | group p named reads =>
    obtain ⟨q, reads'⟩ := (back e member).node _ _ reads (other.child e.1)
    exact ⟨_, .group q named reads'⟩
  | upserts us named reads =>
    obtain ⟨vs, reads'⟩ := (back e member).upserts _ _ reads (other.child e.1)
    exact ⟨_, .upserts vs named reads'⟩
  | plain p single named reads =>
    obtain ⟨q, reads'⟩ := (back e member).node _ _ reads (other.child e.1)
    exact ⟨_, .plain q single named reads'⟩

end Parts

/-- A list can be read when its items are read under the tokens of their positions. -/
theorem readsBack_list {items : List Tree} (filled : (Tree.list items).ListsFilled)
    (fit : (Tree.list items).ListsFit) (back : ∀ t ∈ items, ReadsBack t) :
    ReadsBack (.list items) where
  node trail p done other := by
    have kind := reading_items (fun empty => filled.1 (empty ▸ rfl))
      (show items.length < Word.bound from fit.1)
    obtain ⟨named, read, -⟩ := (ofTreeAt_sparse_eq_ok kind).mp done
    obtain ⟨ps, read⟩ := exists_items back read 0
    exact ⟨_, ofTreeAt_iff.mpr (.list read)⟩
  upserts trail us done other := by
    cases upsertsOf_iff.mp done with
    | named read =>
      obtain ⟨ps, read⟩ := exists_items back read 0
      exact ⟨_, upsertsOf_iff.mpr (.items read)⟩

/-- A mapping can be read when it is with its values indexed. -/
theorem readsBack_mapping {entries : Mapping Tree} (filled : (Tree.mapping entries).ListsFilled)
    (fit : (Tree.mapping entries).ListsFit) (back : ∀ e ∈ entries, ReadsBack e.2) :
    ReadsBack (.mapping entries) where
  node trail p done other := by
    have filled := Tree.everywhereEntries_iff.mp filled.2
    have fit := Tree.everywhereEntries_iff.mp fit.2
    cases ofTreeAt_iff.mp done with
    | scalar leaf => cases leaf
    | fromRoot kind read =>
      obtain ⟨payload, asks, rfl⟩ := reading_of_indexed kind
      have member := Mapping.mem_of_get? (get?_of_reading_call asks)
      exact ⟨_, ofTreeAt_iff.mpr (.fromRoot asks (Call.ofTree_of_indexed (filled _ member) read))⟩
    | sparse kind read =>
      obtain ⟨named, read⟩ := exists_named back read
      exact ⟨_, ofTreeAt_iff.mpr (.sparse (reading_of_indexed kind) read)⟩
    | edits kind scripted read =>
      obtain ⟨operations, given, rfl⟩ := reading_of_indexed kind
      have member := mem_of_reading_script given
      have scripts := Script.ofTree_of_indexed (filled _ member) (fit _ member) scripted
      rw [Tree.indexedEntries_eq, Mapping.remove_map, ← Tree.indexedEntries_eq] at read
      obtain ⟨parts, read⟩ := exists_parts_of_indexed
        (fun e member => back e (Mapping.mem_of_mem_remove member)) read
      exact ⟨_, ofTreeAt_iff.mpr (.edits given scripts read)⟩
    | keyed kind read =>
      obtain ⟨parts, read⟩ := exists_parts_of_indexed back read
      exact ⟨_, ofTreeAt_iff.mpr (.keyed (reading_of_indexed kind) read)⟩
  upserts trail us done other := by
    cases upsertsOf_iff.mp done with
    | named read =>
      obtain ⟨named, read⟩ := exists_named back read
      exact ⟨_, upsertsOf_iff.mpr (.named read)⟩

theorem readsBack (t : Tree) (filled : t.ListsFilled) (fit : t.ListsFit) : ReadsBack t := by
  induction t using Tree.children_induction with
  | node t ih =>
    have below : t.AllChildren ReadsBack := fun c child =>
      ih c child (filled.child c child) (fit.child c child)
    cases t with
    | list items => exact readsBack_list filled fit (Tree.allChildren_list.mp below)
    | mapping entries => exact readsBack_mapping filled fit (Tree.allChildren_mapping.mp below)
    | str text => exact ⟨fun _ _ _ _ => ⟨_, ofTreeAt_iff.mpr (.text text)⟩, nofun⟩
    | _ => exact ⟨fun _ _ done _ => ⟨_, done⟩, nofun⟩

/-- The indexed tree is read as the indexed patch of what the tree is read as. -/
theorem ofTree_indexed_eq_ok {t : Tree} (filled : t.ListsFilled) (fit : t.ListsFit) {p : Patch} :
    ofTree t.indexed = .ok p ↔ ∃ q, ofTree t = .ok q ∧ p = q.indexed := by
  constructor
  · intro done
    obtain ⟨q, read⟩ := (readsBack t filled fit).node _ _ done .root
    have indexedRead := (reads t filled fit).node _ q read .root
    exact ⟨q, read, Except.ok.inj (done.symm.trans indexedRead)⟩
  · rintro ⟨q, read, rfl⟩
    exact (reads t filled fit).node _ q read .root

end Patch

end ConfigSweep
