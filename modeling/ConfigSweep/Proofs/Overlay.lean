import ConfigSweep.Proofs.Composition
import ConfigSweep.Proofs.Coverage
import ConfigSweep.Proofs.Isolation
import ConfigSweep.Proofs.Keeping
import ConfigSweep.Proofs.LiteralPatch

/-!
# Literal patches as overlays

What the merge of a literal patch leaves is described by the patch and the node that it was merged
into: the literals of the patch, its containers, and all else that the node had. Each step of a merge
puts the result of one patch in its place and keeps the other values, and so does the whole run.
-/

namespace ConfigSweep

namespace Patch

/-- The node is a container as the patch asks for. -/
def Fits : Patch → Tree → Prop
  | .list items, .list others => others.length = items.length
  | .sparse _, .list _ => True
  | .keyed _, .mapping _ => True
  | .keyed patch, .list _ => patch.entries = []
  | _, _ => False

/-- The second tree is the first with the patch laid over it. -/
inductive Overlays : Patch → Tree → Tree → Prop where
  | leaf (value t : Tree) : Overlays (.scalar value) t value
  /-- The node was revealed, is a container now, and only the values that the patch is for changed:
  theirs are overlaid in turn, an absent one like null. -/
  | node {p : Patch} {t shown u : Tree} (reveals : t.reveal = .ok shown) (fits : p.Fits u)
      (settled : u.reveal = .ok u)
      (there : ∀ step q, p.place? step = some q → ∃ v, u.child? step = some v)
      (placed : ∀ step q v, p.place? step = some q → u.child? step = some v →
        Overlays q ((shown.child? step).getD .null) v)
      (kept : ∀ step, p.place? step = none → u.child? step = shown.child? step) :
      Overlays p t u

/-- Below the node, patches are laid over the values that they are found for, and all other values
are kept. -/
structure Placed (find : Step → Option Patch) (t u : Tree) : Prop where
  placed : ∀ step q, find step = some q →
    ∃ v, u.child? step = some v ∧ Overlays q ((t.child? step).getD .null) v
  kept : ∀ step, find step = none → u.child? step = t.child? step

/-- The node was opened for the patch: absent values may have become nulls. -/
structure Opened (p : Patch) (shown u : Tree) : Prop where
  fits : p.Fits u
  settled : u.reveal = .ok u
  values : ∀ step, (u.child? step).getD .null = (shown.child? step).getD .null
  kept : ∀ step, p.place? step = none → u.child? step = shown.child? step

theorem Placed.nothing {find : Step → Option Patch} (none' : ∀ step, find step = none) (t : Tree) :
    Placed find t t where
  placed step q found := by
    rw [none'] at found
    cases found
  kept _ _ := rfl

/-- A run that puts one value in its place first. -/
theorem Placed.cons {find find' : Step → Option Patch} {t first u v : Tree} (step : Step) {q : Patch}
    (overlays : Overlays q ((t.child? step).getD .null) v) (here : first.child? step = some v)
    (others : ∀ other, other ≠ step → first.child? other = t.child? other)
    (rest : Placed find first u) (apart : find step = none)
    (whole : ∀ other, find' other = if other = step then some q else find other) :
    Placed find' t u where
  placed other q' found := by
    rw [whole] at found
    split at found
    · next same =>
      obtain rfl := Option.some.inj found
      exact ⟨v, same ▸ (rest.kept step apart).trans here, same ▸ overlays⟩
    · next away =>
      obtain ⟨w, there, laid⟩ := rest.placed other q' found
      exact ⟨w, there, others other away ▸ laid⟩
  kept other none' := by
    rw [whole] at none'
    split at none'
    · cases none'
    · next away => exact (rest.kept other none').trans (others other away)

theorem Overlays.of_placed {p : Patch} {t shown opened u : Tree} (reveals : t.reveal = .ok shown)
    (opens : Opened p shown opened) (placed : Placed p.place? opened u) (fits : p.Fits u)
    (settled : u.reveal = .ok u) : Overlays p t u := by
  refine .node reveals fits settled (fun step q found => ?_) (fun step q v found there => ?_)
    fun step absent => (placed.kept step absent).trans (opens.kept step absent)
  · obtain ⟨v, there, -⟩ := placed.placed step q found
    exact ⟨v, there⟩
  · obtain ⟨w, there', laid⟩ := placed.placed step q found
    obtain rfl := Option.some.inj (there.symm.trans there')
    exact opens.values step ▸ laid

/-- What a literal patch leaves is no list in disguise. -/
theorem Overlays.reveal {p : Patch} {t u : Tree} (laid : Overlays p t u) (data : p.BringsData) :
    u.reveal = .ok u := by
  cases laid with
  | node reveals fits settled => exact settled
  | leaf =>
    cases u with
    | mapping m => cases data
    | _ => rfl

end Patch

namespace Merge

open Patch

variable {evaluator : Evaluator}

/-- Contracts of operations that may fail for any cause. -/
abbrev Makes (pre : Tree → Prop) (op : Focus → Tree → Outcome Tree) (post : Tree → Prop) : Prop :=
  Contract (fun _ => True) pre op post

/-- Merging the patch into any node lays it over the node. -/
abbrev LaysOver (evaluator : Evaluator) (p : Patch) : Prop :=
  ∀ t, Makes (· = t) (node evaluator p) (Overlays p t)

/-- A contract for each node that is as asked for. -/
theorem Contract.each {allowed : Cause → Prop} {pre post : Tree → Prop}
    {op : Focus → Tree → Outcome Tree} (each : ∀ t, pre t → Contract allowed (· = t) op post) :
    Contract allowed pre op post where
  leaves focus _ t _ there asked done := (each t asked).leaves focus there rfl done
  fails focus _ t _ there asked failed := (each t asked).fails focus there rfl failed

/-- A promise may be weakened. -/
theorem Makes.imp {pre post post' : Tree → Prop} {op : Focus → Tree → Outcome Tree}
    (makes : Makes pre op post) (after : ∀ u, post u → post' u) : Makes pre op post' :=
  makes.weaken (fun _ asked => asked) after

/-- What is made of a child is put in its place. -/
theorem Makes.child {op : Focus → Tree → Outcome Tree} {post : Tree → Prop} {t c : Tree} {step : Step}
    {down : Focus → Focus} (below : ∀ focus, (down focus).path = focus.path ++ [step])
    (there : t.child? step = some c) (makes : Makes (· = c) op post) :
    Makes (· = t) (fun focus root => op (down focus) root)
      fun u => ∃ v, post v ∧ u = t.setChild step v := by
  refine Contract.child makes below fun t' same => ?_
  subst same
  exact ⟨c, there, rfl, fun v promised => ⟨v, promised, rfl⟩⟩

section Slots

/-- Merging into all items of a list is merging into its slots. -/
theorem items_eq_slots {ps : List Patch} {position length : Nat} (fits : position + ps.length ≤ length)
    (focus : Focus) (root : Tree) : items evaluator ps position focus root
      = slots evaluator (SparseList.slotsOf ps position) length focus root := by
  induction ps generalizing position root with
  | nil => rfl
  | cons p rest ih =>
    rw [List.length_cons] at fits
    rw [SparseList.slotsOf_cons, slots, if_neg (by omega), items]
    exact bind_congr fun root => ih (by omega) root

theorem place?_slotsOf (ps : List Patch) :
    (Patch.sparse ⟨SparseList.slotsOf ps 0⟩).place? = (Patch.list ps).place? := by
  funext step
  cases step with
  | key name => rfl
  | index position =>
    have found := SparseList.at?_slotsOf ps 0 position
    rwa [Nat.zero_add] at found

theorem place?_slots_cons (position : Nat) (p : Patch) (rest : List (Nat × Patch)) (step : Step) :
    (Patch.sparse ⟨(position, p) :: rest⟩).place? step
      = if step = .index position then some p else (Patch.sparse ⟨rest⟩).place? step := by
  cases step with
  | key name => rfl
  | index other =>
    rw [Patch.place?, Patch.place?, SparseList.at?_cons]
    simp only [Step.index.injEq, eq_comm]

/-- A list of as many items. -/
def Filled (length : Nat) (u : Tree) : Prop :=
  ∃ items, u = .list items ∧ items.length = length

theorem slots_makes {ps : List (Nat × Patch)} (ascending : (⟨ps⟩ : SparseList Patch).Ascending)
    (each : ∀ slot ∈ ps, LaysOver evaluator slot.2)
    {items : List Tree} {length : Nat} (size : items.length = length) :
    Makes (· = .list items) (fun focus root => slots evaluator ps length focus root)
      fun u => Filled length u ∧ Placed (Patch.sparse ⟨ps⟩).place? (.list items) u := by
  unfold SparseList.Ascending at ascending
  -- The first patch changes the list that the others are merged into, but at no position of theirs.
  induction ps generalizing items with
  | nil =>
    exact .stay ⟨⟨items, rfl, size⟩, .nothing (fun step => by cases step <;> rfl) _⟩
  | cons slot rest ih =>
    obtain ⟨position, p⟩ := slot
    rw [List.forall_mem_cons] at each
    rw [List.pairwise_cons] at ascending
    unfold slots
    split
    · exact .fail trivial
    · next within =>
      have there : (Tree.list items).child? (.index position) = some items[position] :=
        List.getElem?_eq_getElem (by omega)
      refine (Makes.child (fun _ => rfl) there (each.1 _)).bind (.each fun u puts => ?_)
      obtain ⟨v, laid, rfl⟩ := puts
      have apart : (Patch.sparse ⟨rest⟩).place? (.index position) = none :=
        SparseList.at?_eq_none fun other member => Nat.ne_of_gt (ascending.1 other member)
      refine Makes.imp (ih ascending.2 each.2 (List.length_set.trans size)) fun u made =>
        ⟨made.1, ?_⟩
      exact .cons (.index position) (by rwa [there]) (Tree.child?_setChild there v)
        (fun other => Tree.child?_setChild_other there v) made.2 apart
        (place?_slots_cons position p rest)

/-- A leaf becomes a list of nulls. -/
theorem opened_blanks {p : Patch} {shown : Tree} (leaf : shown.isLeaf = true) (length : Nat)
    (fits : p.Fits (.list (List.replicate length .null)))
    (covers : ∀ position, p.place? (.index position) = none → length ≤ position) :
    Opened p shown (.list (List.replicate length .null)) := by
  refine ⟨fits, rfl, fun step => ?_, fun step absent => ?_⟩
  · rw [Tree.child?_leaf leaf]
    cases step with
    | key name => rfl
    | index position =>
      rw [Tree.child?, List.getElem?_replicate]
      split <;> rfl
  · rw [Tree.child?_leaf leaf]
    cases step with
    | key name => rfl
    | index position =>
      exact List.getElem?_eq_none (by rw [List.length_replicate]; exact covers position absent)

theorem openList_makes (ps : List Patch) (t : Tree) :
    Makes (· = t) (fun focus root => openList focus ps.length root)
      fun u => ∃ shown, t.reveal = .ok shown ∧ Opened (.list ps) shown u := by
  refine .revealed (fun _ _ => trivial) fun t' shown same reveals => ?_
  subst same
  have blanks : shown.isLeaf = true →
      Opened (.list ps) shown (.list (List.replicate ps.length .null)) := fun leaf =>
    opened_blanks leaf ps.length List.length_replicate fun position absent =>
      List.getElem?_eq_none_iff.mp absent
  cases shown with
  | list items =>
    dsimp only
    split
    · next fits => exact .stay ⟨_, reveals, fits, rfl, fun _ => rfl, fun _ _ => rfl⟩
    · exact .fail trivial
  | mapping m => exact .fail trivial
  | _ => exact .write ⟨_, reveals, blanks rfl⟩

/-- Slots without gaps are found at all positions of the list that is made for them. -/
theorem size_le_of_absent {s : SparseList Patch} (ascending : s.Ascending)
    (gapless : s.checkGapless = .ok ()) {position : Nat} (absent : s.at? position = none) :
    s.size ≤ position := by
  have listed : s.toList = .ok (s.slots.map Prod.snd) := SparseList.toList_eq_ok.mpr ⟨gapless, rfl⟩
  have found := (SparseList.toList_eq_ok_iff ascending).mp listed position
  rw [absent, List.getElem?_eq_none_iff, List.length_map] at found
  exact found

theorem sparse_makes {s : SparseList Patch} (ascending : s.Ascending)
    (each : ∀ slot ∈ s.slots, LaysOver evaluator slot.2) (t : Tree) :
    Makes (· = t) (fun focus root => openSlots focus s root >>= fun opened =>
        slots evaluator s.slots opened.1 focus opened.2)
      (Overlays (.sparse s) t) := by
  -- A list is kept and a leaf becomes nulls: both times the slots are merged into a list.
  have merges : ∀ (shown : Tree) (items : List Tree), t.reveal = .ok shown →
      Opened (.sparse s) shown (.list items) → Makes (· = .list items)
        (fun focus root => slots evaluator s.slots items.length focus root)
        (Overlays (.sparse s) t) := by
    intro shown items reveals opens
    refine Makes.imp (slots_makes ascending each rfl) fun u made => ?_
    obtain ⟨⟨others, rfl, -⟩, placed⟩ := made
    exact .of_placed reveals opens placed trivial rfl
  unfold openSlots
  simp only [bind_assoc]
  refine .revealed (fun _ _ => trivial) fun t' shown same reveals => ?_
  subst same
  have fresh : shown.isLeaf = true → s.checkGapless = .ok () → Makes (· = shown)
      (fun focus root => focus.write (.list (List.replicate s.size .null)) root >>= fun root =>
        slots evaluator s.slots s.size focus root) (Overlays (.sparse s) t') := by
    intro leaf gapless
    have opens := opened_blanks (p := .sparse s) leaf s.size trivial
      fun position absent => size_le_of_absent ascending gapless absent
    have makes := merges shown _ reveals opens
    rw [List.length_replicate] at makes
    have fills : Makes (· = shown)
        (fun focus root => focus.write (.list (List.replicate s.size .null)) root)
        (· = .list (List.replicate s.size .null)) := .write rfl
    exact fills.bind makes
  dsimp only
  cases shown with
  | list items => exact merges _ items reveals ⟨trivial, rfl, fun _ => rfl, fun _ _ => rfl⟩
  | mapping m => exact .fail trivial
  | _ =>
    simp only [bind_assoc, pure_bind]
    exact .given (fun _ _ _ => trivial) fun _ _ gapless => fresh rfl gapless

end Slots

section Entries

theorem isPositional_iff {α : Type} {m : Mapping α} : Mapping.isPositional m = true ↔
    Mapping.keys m ≠ [] ∧ ∀ key ∈ Mapping.keys m, Position.isToken key = true := by
  simp [Mapping.isPositional_eq]

/-- Keys of two mappings that are no lists in disguise make none together. -/
theorem plain_of_keys {α β γ : Type} {m : Mapping α} {entries : Mapping β} {n : Mapping γ}
    (plain : Mapping.isPositional m = false) (plain' : Mapping.isPositional entries = false)
    (keys : ∀ key, key ∈ Mapping.keys n ↔ key ∈ Mapping.keys m ∨ key ∈ Mapping.keys entries) :
    Mapping.isPositional n = false := by
  rw [← Bool.not_eq_true] at plain plain' ⊢
  intro positional
  obtain ⟨filled, tokens⟩ := isPositional_iff.mp positional
  have none₁ : Mapping.keys m = [] := by
    by_contra keyed
    exact plain (isPositional_iff.mpr
      ⟨keyed, fun key member => tokens key ((keys key).mpr (.inl member))⟩)
  have none₂ : Mapping.keys entries = [] := by
    by_contra keyed
    exact plain' (isPositional_iff.mpr
      ⟨keyed, fun key member => tokens key ((keys key).mpr (.inr member))⟩)
  obtain ⟨key, member⟩ := List.exists_mem_of_ne_nil _ filled
  rw [keys, none₁, none₂] at member
  simp at member

theorem ensureKey_makes (key : String) (m : Mapping Tree) :
    Makes (· = .mapping m) (fun focus root => ensureKey focus key root)
      (· = .mapping (opened key m)) where
  leaves focus root t r there same done := by
    subst same
    obtain ⟨n, there', replaced⟩ := ensureKey_eq_ok.mp done
    obtain rfl := Tree.mapping.inj (Option.some.inj (there.symm.trans there'))
    exact ⟨_, replaced, rfl⟩
  fails _ _ _ _ _ _ _ := trivial

/-- The mapping has the keys of both. -/
def KeyedBy {α β : Type} (m : Mapping α) (entries : Mapping β) (u : Tree) : Prop :=
  ∃ n, u = .mapping n ∧
    ∀ key, key ∈ Mapping.keys n ↔ key ∈ Mapping.keys m ∨ key ∈ Mapping.keys entries

theorem values_makes {entries : List (String × Patch)} (unique : (Mapping.keys entries).Nodup)
    (each : ∀ e ∈ entries, LaysOver evaluator e.2) (m : Mapping Tree) :
    Makes (· = .mapping m) (fun focus root => values evaluator entries focus root)
      fun u => KeyedBy m entries u ∧ Placed (Patch.keyed { entries }).place? (.mapping m) u := by
  induction entries generalizing m with
  | nil =>
    exact .stay ⟨⟨m, rfl, fun key => by simp⟩, .nothing (fun step => by cases step <;> rfl) _⟩
  | cons e rest ih =>
    obtain ⟨key, p⟩ := e
    rw [List.forall_mem_cons] at each
    rw [Mapping.keys_cons, List.nodup_cons] at unique
    -- A key that was absent holds null when its patch is merged, and the result replaces that null.
    have there : (Tree.mapping (opened key m)).child? (.key key)
        = some ((Mapping.get? key m).getD .null) := get?_opened key m
    unfold values
    refine (ensureKey_makes key m).bind (.bind (Makes.child (fun _ => rfl) there (each.1 _))
      (.each fun u puts => ?_))
    obtain ⟨v, laid, rfl⟩ := puts
    have has : Mapping.has key (opened key m) = true := Option.isSome_iff_exists.mpr ⟨_, there⟩
    rw [Tree.setChild, if_pos has, insert_opened]
    refine Makes.imp (ih unique.2 each.2 (Mapping.insert key v m)) fun u made => ?_
    obtain ⟨⟨n, rfl, keys⟩, placed⟩ := made
    refine ⟨⟨n, rfl, fun other => ?_⟩, ?_⟩
    · rw [keys, Mapping.mem_keys_insert, Mapping.keys_cons, List.mem_cons]
      tauto
    · have apart : (Patch.keyed { entries := rest }).place? (.key key) = none :=
        Mapping.get?_eq_none_iff.mpr unique.1
      have here : (Tree.mapping (Mapping.insert key v m)).child? (.key key) = some v := by
        rw [Tree.child?, Mapping.get?_insert, if_pos rfl]
      refine .cons (.key key) laid here (fun other away => ?_) placed apart fun other => ?_
      · cases other with
        | index position => rfl
        | key name =>
          have away' : name ≠ key := fun same => away (congrArg Step.key same)
          rw [Tree.child?, Mapping.get?_insert, if_neg away', Tree.child?]
      · cases other with
        | index position => rfl
        | key name =>
          rw [Patch.place?, Patch.place?, Mapping.get?_cons]
          simp only [Step.key.injEq, eq_comm]

theorem openMapping_makes (entries : List (String × Patch)) (t : Tree) :
    Makes (· = t) (fun focus root => openMapping focus entries.isEmpty root)
      fun u => ∃ shown, t.reveal = .ok shown ∧ Opened (.keyed { entries }) shown u := by
  refine .revealed (fun _ _ => trivial) fun t' shown same reveals => ?_
  subst same
  have settled := Tree.reveal_reveal reveals
  dsimp only
  cases shown with
  | mapping m => exact .stay ⟨_, reveals, trivial, settled, fun _ => rfl, fun _ _ => rfl⟩
  | list items =>
    cases entries with
    | nil => exact .stay ⟨_, reveals, rfl, rfl, fun _ => rfl, fun _ _ => rfl⟩
    | cons e rest => exact .fail trivial
  | _ =>
    refine .write ⟨_, reveals, trivial, rfl, fun step => ?_, fun step _ => ?_⟩ <;> cases step <;> rfl

theorem keyed_makes {entries : List (String × Patch)} (unique : (Mapping.keys entries).Nodup)
    (plain : Mapping.isPositional entries = false)
    (each : ∀ e ∈ entries, LaysOver evaluator e.2) (t : Tree) :
    Makes (· = t) (fun focus root => keyed evaluator { entries } focus root)
      (Overlays (.keyed { entries }) t) := by
  unfold keyed
  refine (openMapping_makes entries t).bind (.each fun u opens => ?_)
  obtain ⟨shown, reveals, opens⟩ := opens
  have empty : ∀ (focus : Focus) (root : Tree),
      (revisits evaluator [] focus root >>= fun root => ordered evaluator [] 0 focus root)
        = pure root := fun _ _ => rfl
  simp only [empty, bind_pure]
  cases u with
  | mapping m =>
    have plain' : Mapping.isPositional m = false := Tree.isDisguised_of_reveal opens.settled
    refine Makes.imp (values_makes unique each m) fun u made => ?_
    obtain ⟨⟨n, rfl, keys⟩, placed⟩ := made
    have settled : (Tree.mapping n).reveal = .ok (.mapping n) :=
      Tree.reveal_plain (plain_of_keys plain' plain keys)
    exact .of_placed reveals opens placed trivial settled
  | list items =>
    obtain rfl : entries = [] := opens.fits
    have nothing : ∀ step, (Patch.keyed {}).place? step = none := fun step => by
      cases step <;> rfl
    exact .stay (.of_placed reveals opens (.nothing nothing _) rfl rfl)
  | _ => exact opens.fits.elim

end Entries

theorem list_makes {ps : List Patch} (each : ∀ p ∈ ps, LaysOver evaluator p) (t : Tree) :
    Makes (· = t) (fun focus root => openList focus ps.length root >>= fun root =>
        items evaluator ps 0 focus root)
      (Overlays (.list ps) t) := by
  simp only [items_eq_slots (Nat.le_of_eq (Nat.zero_add ps.length))]
  refine (openList_makes ps t).bind (.each fun u opens => ?_)
  obtain ⟨shown, reveals, opens⟩ := opens
  cases u with
  | list items =>
    have slotted : ∀ slot ∈ SparseList.slotsOf ps 0, LaysOver evaluator slot.2 := by
      intro slot member
      refine each slot.2 ?_
      rw [← SparseList.values_slotsOf ps 0]
      exact List.mem_map_of_mem member
    refine Makes.imp (slots_makes (SparseList.pairwise_slotsOf ps 0) slotted opens.fits)
      fun u made => ?_
    obtain ⟨⟨others, rfl, size⟩, placed⟩ := made
    exact .of_placed reveals opens (place?_slotsOf ps ▸ placed) size rfl
  | _ => exact opens.fits.elim

/-- Every literal patch is laid over the node that it is merged into. -/
theorem node_makes {p : Patch} (literal : p.Literal) (evaluator : Evaluator) :
    LaysOver evaluator p := by
  induction literal with
  | @intro p here within ih =>
    intro t
    -- Settling reveals the node once more, which changes nothing.
    have settles : ∀ u shown, Overlays p t u → u.reveal = .ok shown → Overlays p t shown := by
      intro u shown laid reveals
      rw [laid.reveal here] at reveals
      exact Except.ok.inj reveals ▸ laid
    cases p with
    | scalar value => exact .settle (fun _ _ => trivial) (.write (.leaf value t)) _ settles
    | fromPrevious call => exact here.elim
    | fromRoot call => exact here.elim
    | edits script payload => exact here.elim
    | list ps => exact .settle (fun _ _ => trivial) (list_makes ih t) _ settles
    | sparse s =>
      obtain ⟨slots⟩ := s
      have each : ∀ slot ∈ slots, LaysOver evaluator slot.2 :=
        fun slot member => ih slot.2 (List.mem_map_of_mem member)
      exact .settle (fun _ _ => trivial) (sparse_makes here each t) _ settles
    | keyed patch =>
      obtain ⟨entries, groups, upserts⟩ := patch
      obtain ⟨unique, plain, rfl, rfl⟩ := here
      have each : ∀ e ∈ entries, LaysOver evaluator e.2 :=
        fun e member => ih e.2 (KeyedPatch.mem_patches_of_entry member)
      exact .settle (fun _ _ => trivial) (keyed_makes unique plain each t) _ settles

/-- What the merge of a literal patch leaves at a node is the node with the patch laid over it. -/
theorem overlays_of_node {p : Patch} (literal : p.Literal) (focus : Focus) {root t r : Tree}
    (there : root.get? focus.path = some t) (done : node evaluator p focus root = .ok r) :
    ∃ u, Tree.replace? u focus.path root = some r ∧ Overlays p t u :=
  (node_makes literal evaluator t).leaves focus there rfl done

end Merge

/-- What the merge of a tree of plain data leaves is the base with the tree laid over it. -/
theorem Tree.overlays_of_merge {evaluator : Evaluator} {base patch merged : Tree}
    (plain : patch.Everywhere Tree.PlainData) (done : merge evaluator base patch = .ok merged) :
    ∃ p, Patch.ofTree patch = .ok p ∧ p.Literal ∧ p.Overlays base merged := by
  obtain ⟨p, reads, merges, -⟩ := merge_eq_ok.mp done
  have literal := Patch.literal_of_ofTree plain reads
  obtain ⟨u, replaced, laid⟩ := Merge.overlays_of_node literal .root rfl merges
  obtain rfl := Option.some.inj replaced
  exact ⟨p, reads, literal, laid⟩

end ConfigSweep
