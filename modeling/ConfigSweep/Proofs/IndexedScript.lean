import ConfigSweep.Patch.Script
import ConfigSweep.Proofs.Indexing

/-!
# Scripts and calls of indexed trees

Calls hold no lists, and a script reads the same from a list of instructions as from the mapping
from position tokens to them.
-/

namespace ConfigSweep

section Sequences

variable {ε α β γ : Type}

/-- A run over changed items gives the same results when each item does. -/
theorem mapM_eq_ok_of_map {f : α → Except ε β} {g : γ → Except ε β} {change : α → γ}
    {items : List α} {results : List β}
    (same : ∀ a ∈ items, ∀ b, f a = .ok b → g (change a) = .ok b)
    (done : items.mapM f = .ok results) : (items.map change).mapM g = .ok results := by
  rw [mapM_eq_ok] at done
  rw [mapM_eq_ok, List.forall₂_map_left_iff]
  exact ((List.forall₂_and_left items results).mpr ⟨same, done⟩).imp fun a b both => both.1 b both.2

theorem forM_eq_ok {check : α → Except ε Unit} {items : List α} :
    items.forM check = .ok () ↔ ∀ a ∈ items, check a = .ok () := by
  induction items with
  | nil => simp [pure, Except.pure]
  | cons a rest ih =>
    rw [List.forM_eq_forM] at ih ⊢
    rw [List.forM_cons, List.forall_mem_cons, ← ih]
    constructor
    · intro done
      obtain ⟨⟨⟩, first, later⟩ := bind_eq_ok.mp done
      exact ⟨first, later⟩
    · rintro ⟨first, later⟩
      exact bind_eq_ok.mpr ⟨(), first, later⟩

end Sequences

namespace SparseList

variable {α β : Type}

/-- The sparse list with every value changed. -/
def mapValues (f : α → β) (s : SparseList α) : SparseList β :=
  ⟨s.slots.map fun slot => (slot.1, f slot.2)⟩

theorem mapValues_set (f : α → β) (position : Nat) (value : α) (s : SparseList α) :
    (s.set position value).mapValues f = (s.mapValues f).set position (f value) := by
  obtain ⟨slots⟩ := s
  unfold mapValues set
  refine congrArg SparseList.mk ?_
  dsimp only
  induction slots with
  | nil => rfl
  | cons slot rest ih =>
    rw [setSlot, List.map_cons, setSlot]
    split
    · rfl
    · split
      · rfl
      · rw [List.map_cons, ih]

/-- Puts a value at the position of its token. -/
abbrev step (s : SparseList α) (e : String × α) : SparseList α :=
  match Position.ofToken? e.1 with
  | some position => s.set position e.2
  | none => s

theorem ofWrites_map (f : α → β) (writes : List (Nat × α)) :
    ofWrites (writes.map fun write => (write.1, f write.2)) = (ofWrites writes).mapValues f := by
  induction writes using List.reverseRecOn with
  | nil => rfl
  | append_singleton writes write ih =>
    rw [List.map_append, List.map_singleton, ofWrites_concat, ofWrites_concat, ih, mapValues_set]

/-- Changing the values first changes nothing else. -/
theorem ofEntries_map (f : α → β) (m : Mapping α) :
    ofEntries (m.map fun e => (e.1, f e.2)) = (ofEntries m).mapValues f := by
  have writes : writesOf (m.map fun e => (e.1, f e.2))
      = (writesOf m).map fun write => (write.1, f write.2) := by
    simp [writesOf, List.filterMap_map, List.map_filterMap, Function.comp_def]
  rw [ofEntries_eq, ofEntries_eq, writes, ofWrites_map]

section Related

variable {relation : α → β → Prop}

theorem forall₂_setSlot {position : Nat} {v : α} {w : β} (values : relation v w)
    {slots : List (Nat × α)} {slots' : List (Nat × β)}
    (related : List.Forall₂ (fun a b => a.1 = b.1 ∧ relation a.2 b.2) slots slots') :
    List.Forall₂ (fun a b => a.1 = b.1 ∧ relation a.2 b.2) (setSlot position v slots)
      (setSlot position w slots') := by
  induction related with
  | nil => exact .cons ⟨rfl, values⟩ .nil
  | @cons a b _ _ first rest ih =>
    obtain ⟨own, r⟩ := a
    obtain ⟨own', s⟩ := b
    obtain ⟨rfl, here⟩ : own = own' ∧ _ := first
    rw [setSlot, setSlot]
    split
    · exact .cons ⟨rfl, values⟩ (.cons ⟨rfl, here⟩ rest)
    · split
      · exact .cons ⟨rfl, values⟩ rest
      · exact .cons ⟨rfl, here⟩ ih

/-- Mappings with the same keys and related values have related slots at the same positions. -/
theorem forall₂_ofEntries {m : Mapping α} {n : Mapping β}
    (related : List.Forall₂ (fun d e => d.1 = e.1 ∧ relation d.2 e.2) m n) :
    List.Forall₂ (fun a b => a.1 = b.1 ∧ relation a.2 b.2) (ofEntries m).slots
      (ofEntries n).slots := by
  have folded : ∀ {s : SparseList α} {s' : SparseList β},
      List.Forall₂ (fun a b => a.1 = b.1 ∧ relation a.2 b.2) s.slots s'.slots →
        List.Forall₂ (fun a b => a.1 = b.1 ∧ relation a.2 b.2) (m.foldl step s).slots
          (n.foldl step s').slots := by
    induction related with
    | nil => exact fun start => start
    | @cons d e _ _ first rest ih =>
      intro s s' start
      rw [List.foldl_cons, List.foldl_cons]
      apply ih
      unfold step
      rw [first.1]
      split
      · exact forall₂_setSlot first.2 start
      · exact start
  exact folded .nil

end Related

theorem length_mapValues (f : α → β) (s : SparseList α) : (s.mapValues f).length = s.length := by
  obtain ⟨slots⟩ := s
  unfold length highest? mapValues
  rw [List.getLast?_map]
  cases slots.getLast? <;> rfl

/-- A list of items has as many slots as items. -/
theorem length_slotsOf {items : List α} (fits : items.length < Word.bound) :
    (⟨slotsOf items 0⟩ : SparseList α).length = items.length := by
  unfold length highest? slotsOf
  rw [List.getLast?_map, List.getLast?_zipIdx]
  cases last : items.getLast? with
  | none =>
    rw [List.getLast?_eq_none_iff.mp last]
    rfl
  | some a =>
    have filled : 0 < items.length := List.length_pos_of_mem (List.mem_of_getLast? last)
    simp only [Option.map_some, Prod.swap_prod_mk]
    omega

end SparseList

namespace Script

/-- Puts one instruction at the position of its token. -/
def slotStep (s : SparseList Tree) (e : String × Tree) : Outcome (SparseList Tree) :=
  match Position.ofToken? e.1 with
  | some position => .ok (s.set position e.2)
  | none => fail (.malformedEdit ("operation key '" ++ e.1
      ++ "' is not an index token such as " ++ Position.token 0))

theorem slotStep_eq_ok {s next : SparseList Tree} {e : String × Tree} :
    slotStep s e = .ok next ↔
      ∃ position, Position.ofToken? e.1 = some position ∧ s.set position e.2 = next := by
  unfold slotStep
  cases Position.ofToken? e.1 <;> simp [fail]

theorem slots_eq (entries : Mapping Tree) : slots entries = entries.foldlM slotStep .empty := rfl

theorem foldlM_slotStep {entries : Mapping Tree} (s : SparseList Tree)
    (tokens : ∀ e ∈ entries, Position.isToken e.1 = true) :
    entries.foldlM slotStep s = .ok (entries.foldl (fun s e =>
      match Position.ofToken? e.1 with
      | some position => s.set position e.2
      | none => s) s) := by
  induction entries generalizing s with
  | nil => rfl
  | cons e rest ih =>
    obtain ⟨position, read⟩ := Option.isSome_iff_exists.mp (tokens e List.mem_cons_self)
    have later := fun d member => tokens d (List.mem_cons_of_mem e member)
    rw [List.foldlM_cons, List.foldl_cons, slotStep_eq_ok.mpr ⟨position, read, rfl⟩, read]
    exact ih _ later

theorem slots_ofItems {items : List Tree} (fits : items.length < Word.bound) :
    slots (Mapping.ofItems items 0) = .ok ⟨SparseList.slotsOf items 0⟩ := by
  by_cases empty : items = []
  · subst empty
    rfl
  · have positional : Mapping.isPositional (Mapping.ofItems items 0) = true :=
      Mapping.isPositional_ofItems empty (by omega)
    have tokens := List.all_eq_true.mp (Bool.and_eq_true _ _ ▸ positional).2
    rw [slots_eq, foldlM_slotStep _ tokens]
    exact congrArg Except.ok (SparseList.ofEntries_ofItems fits)

theorem slots_eq_ok {entries : Mapping Tree} {s : SparseList Tree} : slots entries = .ok s ↔
    (∀ e ∈ entries, Position.isToken e.1 = true) ∧ s = SparseList.ofEntries entries := by
  constructor
  · intro done
    have tokens : ∀ e ∈ entries, Position.isToken e.1 = true := by
      have folded : ∀ (entries : Mapping Tree) (start : SparseList Tree),
          entries.foldlM slotStep start = .ok s → ∀ e ∈ entries, Position.isToken e.1 = true := by
        intro entries
        induction entries with
        | nil => simp
        | cons e rest ih =>
          intro start done
          rw [List.foldlM_cons] at done
          obtain ⟨next, first, later⟩ := bind_eq_ok.mp done
          obtain ⟨position, read, -⟩ := slotStep_eq_ok.mp first
          rw [List.forall_mem_cons]
          exact ⟨by rw [Position.isToken, read]; rfl, ih next later⟩
      exact folded entries .empty done
    rw [slots_eq, foldlM_slotStep _ tokens] at done
    exact ⟨tokens, (Except.ok.inj done).symm⟩
  · rintro ⟨tokens, rfl⟩
    rw [slots_eq, foldlM_slotStep _ tokens]
    rfl

/-- Instructions have an order when all keys are tokens and cover the positions. -/
theorem inOrder_eq_ok {entries : Mapping Tree} {instructions : List Tree} :
    inOrder entries = .ok instructions ↔ (∀ e ∈ entries, Position.isToken e.1 = true) ∧
      (SparseList.ofEntries entries).length = entries.length ∧
      instructions = (SparseList.ofEntries entries).slots.map (·.2) := by
  unfold inOrder
  rw [bind_eq_ok]
  constructor
  · rintro ⟨s, slots, checked⟩
    obtain ⟨tokens, rfl⟩ := slots_eq_ok.mp slots
    split at checked
    · cases checked
    · next covers => exact ⟨tokens, not_not.mp covers, (Except.ok.inj checked).symm⟩
  · rintro ⟨tokens, covers, rfl⟩
    refine ⟨_, slots_eq_ok.mpr ⟨tokens, rfl⟩, ?_⟩
    rw [if_neg (not_not.mpr covers)]
    rfl

theorem mem_inOrder {entries : Mapping Tree} {instructions : List Tree}
    (ordered : inOrder entries = .ok instructions) :
    ∀ item ∈ instructions, ∃ e ∈ entries, e.2 = item := by
  obtain ⟨-, -, rfl⟩ := inOrder_eq_ok.mp ordered
  intro item member
  obtain ⟨slot, inside, rfl⟩ := List.mem_map.mp member
  exact SparseList.mem_ofEntries inside

theorem inOrder_indexedEntries {entries : Mapping Tree} {instructions : List Tree} :
    inOrder (Tree.indexedEntries entries) = .ok instructions ↔
      ∃ originals, inOrder entries = .ok originals ∧ instructions = originals.map Tree.indexed := by
  have values : ((SparseList.ofEntries entries).mapValues Tree.indexed).slots.map (·.2)
      = ((SparseList.ofEntries entries).slots.map (·.2)).map Tree.indexed := by
    simp [SparseList.mapValues]
  rw [Tree.indexedEntries_eq, inOrder_eq_ok, SparseList.ofEntries_map, SparseList.length_mapValues,
    List.length_map, List.forall_mem_map, values]
  simp only [inOrder_eq_ok]
  constructor
  · rintro ⟨tokens, covers, rfl⟩
    exact ⟨_, ⟨tokens, covers, rfl⟩, rfl⟩
  · rintro ⟨_, ⟨tokens, covers, rfl⟩, rfl⟩
    exact ⟨tokens, covers, rfl⟩

theorem inOrder_indexedItems {items : List Tree} (fits : items.length < Word.bound) :
    inOrder (Tree.indexedItems items 0) = .ok (items.map Tree.indexed) := by
  have short : (items.map Tree.indexed).length < Word.bound := by
    rw [List.length_map]
    exact fits
  have values : (SparseList.slotsOf (items.map Tree.indexed) 0).map Prod.snd
      = items.map Tree.indexed := by
    simp [SparseList.slotsOf, Function.comp_def]
  have count : (Mapping.ofItems (items.map Tree.indexed) 0).length
      = (items.map Tree.indexed).length := by
    simp [Mapping.ofItems]
  rw [Tree.indexedItems_eq, inOrder, slots_ofItems short]
  dsimp only [bind, Except.bind]
  rw [SparseList.length_slotsOf short, count, if_neg (by simp), values]
  rfl

end Script

section Reading

open ConfigSweep.Tree

/-- An instruction reads the same when its argument is indexed. -/
theorem Edit.ofTree_indexed {t : Tree} {edit : Edit} (filled : t.ListsFilled) (fit : t.ListsFit)
    (done : Edit.ofTree t = .ok edit) : Edit.ofTree t.indexed = .ok edit := by
  unfold Edit.ofTree at done
  split at done
  · next operation argument =>
    obtain ⟨revealed, reveals, done⟩ := bind_eq_ok.mp done
    have inner : argument.revealAll = .ok revealed := by
      cases whole : argument.revealAll with
      | error stopped => rw [whole] at reveals; cases reveals
      | ok shown => rw [whole] at reveals; exact congrArg Except.ok (Except.ok.inj reveals)
    have same := revealAll_indexed argument revealed filled.2.1 fit.2.1 inner
    rw [indexed, indexedEntries, indexedEntries, Edit.ofTree, same]
    exact done
  · cases done
  · cases done

theorem Script.ofTree_indexed {t : Tree} {script : Script} (filled : t.ListsFilled)
    (fit : t.ListsFit) (done : Script.ofTree t = .ok script) :
    Script.ofTree t.indexed = .ok script := by
  cases t with
  | list items =>
    have each : ∀ item ∈ items, ∀ edit, Edit.ofTree item = .ok edit →
        Edit.ofTree item.indexed = .ok edit := fun item member edit =>
      Edit.ofTree_indexed (everywhereItems_iff.mp filled.2 item member)
        (everywhereItems_iff.mp fit.2 item member)
    exact bind_eq_ok.mpr ⟨_, inOrder_indexedItems fit.1, mapM_eq_ok_of_map each done⟩
  | mapping entries =>
    obtain ⟨instructions, ordered, edits⟩ := bind_eq_ok.mp done
    have each : ∀ item ∈ instructions, ∀ edit, Edit.ofTree item = .ok edit →
        Edit.ofTree item.indexed = .ok edit := by
      intro item member edit
      obtain ⟨e, among, rfl⟩ := Script.mem_inOrder ordered item member
      exact Edit.ofTree_indexed (everywhereEntries_iff.mp filled.2 e among)
        (everywhereEntries_iff.mp fit.2 e among)
    exact bind_eq_ok.mpr ⟨_, inOrder_indexedEntries.mpr ⟨instructions, ordered, rfl⟩,
      mapM_eq_ok_of_map each edits⟩
  | _ => cases done

theorem indexed_leaf {t : Tree} (leaf : t.isLeaf = true) : t.indexed = t := by
  cases t with
  | list items => cases leaf
  | mapping entries => cases leaf
  | _ => rfl

/-- A call that can be read holds leaves only. -/
theorem Call.leaves_of_ofEntries {entries : Mapping Tree} {call : Call}
    (read : Call.ofEntries entries = .ok call) : ∀ e ∈ entries, e.2.isLeaf = true := by
  obtain ⟨⟨⟩, checked, -⟩ := bind_eq_ok.mp read
  intro e member
  have here := forM_eq_ok.mp checked e member
  obtain ⟨key, value⟩ := e
  dsimp only at here
  split at here
  · cases value with
    | str text => rfl
    | _ => cases here
  · cases value with
    | str text => rfl
    | null => rfl
    | _ => cases here
  · cases here

theorem Call.indexed_of_ofTree {t : Tree} {call : Call} (done : Call.ofTree t = .ok call) :
    t.indexed = t := by
  cases t with
  | mapping entries =>
    dsimp only [Call.ofTree] at done
    split at done
    · next read =>
      have same : entries.map (fun e => (e.1, e.2.indexed)) = entries := by
        refine (List.map_congr_left fun e member => ?_).trans (List.map_id entries)
        rw [indexed_leaf (Call.leaves_of_ofEntries read e member)]
        rfl
      rw [indexed, indexedEntries_eq, same]
    · cases done
  | list items => cases done
  | _ => rfl

end Reading

end ConfigSweep
